import ApiLint.Proofs.Json.Equality

/-!
# Values as texts give them

A value that repeats no key is read back from the draft of a text that writes it.  Each member has a
new key there, and so it comes behind the members that are there already.
-/

namespace ApiLint.Json

theorem insert_of_notMem {members : List (String × Json)} {key : String} {value : Json}
    (h : key ∉ members.map Prod.fst) : insert members key value = members ++ [(key, value)] := by
  refine if_neg fun hany => h ?_
  obtain ⟨m, hm, hkey⟩ := List.any_eq_true.1 hany
  exact List.mem_map.2 ⟨m, hm, by simpa using hkey⟩

namespace Draft

theorem toItems?_ofItems {items : List Json}
    (h : ∀ item ∈ items, (ofJson item).toJson? = some item) :
    toItems? (ofItems items) = some items := by
  induction items with
  | nil => rfl
  | cons item rest ih =>
    rw [List.forall_mem_cons] at h
    rw [ofItems, toItems?, h.1, ih h.2]
    rfl

theorem toMembers?_ofMembers {members done : List (String × Json)}
    (nodup : ((done ++ members).map Prod.fst).Nodup)
    (h : ∀ m ∈ members, (ofJson m.2).toJson? = some m.2) :
    toMembers? done (ofMembers members) = some (done ++ members) := by
  induction members generalizing done with
  | nil => rw [ofMembers, toMembers?, List.append_nil]
  | cons m rest ih =>
    obtain ⟨key, value⟩ := m
    rw [List.forall_mem_cons] at h
    have new : key ∉ done.map Prod.fst := by
      rw [List.map_append, List.nodup_append] at nodup
      exact fun hkey => nodup.2.2 key hkey key (List.mem_cons_self ..) rfl
    rw [List.append_cons] at nodup ⊢
    rw [ofMembers, toMembers?, h.1, Option.bind_eq_bind, Option.bind_some, insert_of_notMem new,
      ih nodup h.2]

theorem toJson?_ofJson {value : Json} (h : value.hasDistinctKeys) :
    (ofJson value).toJson? = some value := by
  induction value using Json.induction with
  | scalar value harr hobj => cases value <;> simp_all [ofJson, toJson?, isArr, isObj]
  | arr items ih =>
    rw [hasDistinctKeys_arr] at h
    rw [ofJson, toJson?, toItems?_ofItems fun item hitem => ih item hitem (h item hitem)]
    rfl
  | obj members ih =>
    obtain ⟨nodup, inside⟩ := (hasDistinctKeys_obj members).1 h
    have read : toMembers? [] (ofMembers members) = some members :=
      toMembers?_ofMembers nodup fun m hm => ih m hm (inside m hm)
    rw [ofJson, toJson?, read]
    rfl

end Draft

end ApiLint.Json
