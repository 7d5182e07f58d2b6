import ApiLint.Decode.Reader
import Mathlib.Tactic.Choose

/-!
# What reading can give

Whoever reads a record does not know the notation, so what holds of all results of a reading follows
from what holds of all results of the parts that are read.
-/

namespace ApiLint

/-- Whatever a computation gives passes a test: it is the image of one that can give nothing
else. -/
def EveryResult {m : Type → Type} [Functor m] {α : Type} (p : α → Prop) (x : m α) : Prop :=
  ∃ y : m { a // p a }, Subtype.val <$> y = x

namespace EveryResult

/-! ## Generic rules -/

section Generic

variable {m : Type → Type} [Monad m] [LawfulMonad m] {α β : Type} {p : α → Prop} {q : β → Prop}

protected theorem pure {a : α} (h : p a) : EveryResult p (pure a : m α) :=
  ⟨pure ⟨a, h⟩, by rw [map_pure]⟩

protected theorem trivial (x : m α) : EveryResult (fun _ => True) x :=
  ⟨(fun a => ⟨a, trivial⟩) <$> x, by simp⟩

protected theorem bind {x : m α} {f : α → m β} (hx : EveryResult p x)
    (hf : ∀ a, p a → EveryResult q (f a)) : EveryResult q (x >>= f) := by
  obtain ⟨y, rfl⟩ := hx
  choose g hg using fun a : { a // p a } => hf a.1 a.2
  exact ⟨y >>= g, by simp [hg]⟩

/-- Nothing has to be known about the first of two computations. -/
theorem bind_of_forall {x : m α} {f : α → m β} (hf : ∀ a, EveryResult q (f a)) :
    EveryResult q (x >>= f) :=
  (EveryResult.trivial x).bind fun a _ => hf a

protected theorem map {x : m α} {f : α → β} (hx : EveryResult p x) (hf : ∀ a, p a → q (f a)) :
    EveryResult q (f <$> x) := by
  rw [← bind_pure_comp]
  exact hx.bind fun a ha => .pure (hf a ha)

protected theorem mapM {f : α → m β} (hf : ∀ a, EveryResult q (f a)) (items : List α) :
    EveryResult (fun results => ∀ b ∈ results, q b) (items.mapM f) := by
  induction items with
  | nil => exact .pure (by simp)
  | cons item rest ih =>
    rw [List.mapM_cons]
    refine (hf item).bind fun b hb => ih.bind fun results hresults => .pure ?_
    exact List.forall_mem_cons.2 ⟨hb, hresults⟩

protected theorem foldlM {f : β → α → m β} (hf : ∀ b a, q b → EveryResult q (f b a)) {start : β}
    (h : q start) (items : List α) : EveryResult q (items.foldlM f start) := by
  induction items generalizing start with
  | nil => exact .pure h
  | cons item rest ih =>
    rw [List.foldlM_cons]
    exact (hf start item h).bind fun next hnext => ih hnext

end Generic

/-! ## Results of steps that can fail -/

section Failing

variable {ε σ α : Type} {p : α → Prop}

theorem of_error (e : ε) : EveryResult p (.error e : Except ε α) := ⟨.error e, rfl⟩

theorem of_eq_ok {x : Except ε α} (h : EveryResult p x) {a : α} (hx : x = .ok a) : p a := by
  obtain ⟨y, rfl⟩ := h
  cases y with
  | error e => cases hx
  | ok b => exact Except.ok.inj hx ▸ b.2

theorem of_throw (e : ε) : EveryResult p (throw e : StateT σ (Except ε) α) := ⟨throw e, rfl⟩

theorem of_run_eq_ok {x : StateT σ (Except ε) α} (h : EveryResult p x) {s : σ} {a : α}
    (hx : x.run' s = .ok a) : p a := by
  obtain ⟨y, rfl⟩ := h
  refine of_eq_ok ⟨y.run' s, ?_⟩ hx
  change Subtype.val <$> Prod.fst <$> y.run s = Prod.fst <$> (Subtype.val <$> y).run s
  rw [StateT.run_map]
  simp

end Failing

end EveryResult

/-! ## Records -/

namespace Reader

variable {ν σ α : Type} {m : Type → Type} [Monad m] {r : Reader ν m}

/-- A reader fails without a result, and what it reads as a value of any shape passes a test. -/
structure GivesOnly (r : Reader ν m) (p : Json → Prop) : Prop where
  fail : ∀ {α : Type} (value : ν) (fault : Fault) (q : α → Prop),
    EveryResult q (r.fail value fault : m α)
  any : ∀ value, EveryResult p (r.any value)

namespace GivesOnly

variable [LawfulMonad m] {p : Json → Prop} {q : σ → Prop} {shape : Shape}
  {read : σ → String → ν → m σ} {whole value : ν} {closed : Bool}

theorem members (hr : r.GivesOnly p)
    (hread : ∀ fields name value, q fields → EveryResult q (read fields name value))
    (members : List (ν × ν)) (seen : List String) {fields : σ} (h : q fields) :
    EveryResult q (r.members shape read whole closed seen fields members) := by
  induction members generalizing seen fields with
  | nil =>
    rw [Reader.members]
    split
    · exact .pure h
    · exact hr.fail ..
  | cons m rest ih =>
    rw [Reader.members]
    refine .bind_of_forall fun name => ?_
    split
    · split
      · exact hr.fail ..
      · exact (hread fields name m.2 h).bind fun fields hfields => ih _ hfields
    · split
      · exact hr.fail ..
      · exact .bind_of_forall fun _ => ih _ h

theorem items (hr : r.GivesOnly p)
    (hread : ∀ fields name value, q fields → EveryResult q (read fields name value))
    (items : List ν) {start : σ} (h : q start) :
    EveryResult q (r.items shape read whole closed start items) := by
  refine (EveryResult.foldlM ?_ h _).bind fun fields hfields => ?_
  · exact fun fields (name, item) => hread fields name item
  split
  · exact .pure hfields
  · exact hr.fail ..

/-- What holds of a record at the beginning and as each of its fields is read holds at the end, so
all that is made of the record can rely on it. -/
theorem fields (hr : r.GivesOnly p)
    (hread : ∀ fields name value, q fields → EveryResult q (read fields name value))
    {start : σ} (h : q start) {finish : σ → Except String α} {result : α → Prop}
    (hfinish : ∀ fields a, q fields → finish fields = .ok a → result a) (value : ν) :
    EveryResult result (r.fields shape read start finish value) := by
  refine .bind_of_forall fun record => ?_
  cases record with
  | named members closed =>
    refine (hr.members hread members [] h).bind fun fields hfields => ?_
    split
    · next a ha => exact .pure (hfinish fields a hfields ha)
    · exact hr.fail ..
  | positional items closed =>
    refine (hr.items hread items h).bind fun fields hfields => ?_
    split
    · next a ha => exact .pure (hfinish fields a hfields ha)
    · exact hr.fail ..

theorem entries (hr : r.GivesOnly p) {read : ν → m α} {result : α → Prop}
    (hread : ∀ value, EveryResult result (read value)) (value : ν) :
    EveryResult (fun entries => ∀ entry ∈ entries, result entry.2) (r.entries read value) := by
  refine .bind_of_forall fun record => ?_
  cases record with
  | named members closed =>
    refine (EveryResult.mapM (q := fun entry => result entry.2) (fun member => ?_) members).bind
      fun entries hentries => ?_
    · exact .bind_of_forall fun name => (hread member.2).bind fun entry hentry => .pure hentry
    · split
      · exact .pure hentries
      · exact hr.fail ..
  | positional items closed => exact hr.fail ..

end GivesOnly

end Reader

end ApiLint
