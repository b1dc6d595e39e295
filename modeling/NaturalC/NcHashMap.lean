import NaturalC.NcHashRuns

/-!
# The hash table as a finite map

As long as no value is equal to a key in use, the search only ever meets keys, and the
table is a finite map. In between stands the `Table`: pairs in buckets, every key in the
bucket of its hash and no key twice. Its operations carry that invariant with them.
-/
namespace NcHash

open Throwing Throwing.Act NcString NcList Linked

/-- A finite map and the order in which its keys are listed. -/
@[ext]
structure Dict where
  keys : List Bytes
  lookup : Bytes → Option Bytes
  nodup : keys.Nodup
  mem_keys : ∀ k, k ∈ keys ↔ (lookup k).isSome = true

def Dict.empty : Dict := ⟨[], fun _ => none, List.nodup_nil, by simp⟩

/-- The values in the order of their keys. -/
def Dict.values (d : Dict) : List Bytes := d.keys.map fun k => (d.lookup k).getD []

/-- What a call means for a finite map. `fits` says which texts can be keys. -/
def Dict.Step (fits : Bytes → Bool) (d : Dict) (reply : Option Reply) (d' : Dict) : Op → Prop
  | .set key value =>
    if fits key.1 then
      reply = some .done ∧ d'.lookup = Function.update d.lookup key.1 (some value.1.text) ∧
        (key.1 ∈ d.keys → d'.keys = d.keys)
    else reply = none ∧ d' = d
  | .get _ key => reply = (d.lookup key.1).map .text ∧ d' = d
  | .delete key =>
    reply = (d.lookup key.1).map (fun _ => .done) ∧
      d'.lookup = Function.update d.lookup key.1 none ∧ (key.1 ∉ d.keys → d' = d)
  | .truncate => reply = some .done ∧ d' = Dict.empty
  | .keyExists key => reply = some (.flag (decide (key.1 ∈ d.keys))) ∧ d' = d
  | .valueExists value => reply = some (.flag (decide (value.1 ∈ d.values))) ∧ d' = d
  | .getKeys => reply = some (.texts d.keys) ∧ d' = d
  | .getValues => reply = some (.texts d.values) ∧ d' = d

/-- A run of calls on a finite map with the replies to them. -/
inductive Dict.Run (fits : Bytes → Bool) : List Op → Dict → List (Option Reply) → Dict → Prop
  | nil (d : Dict) : Dict.Run fits [] d [] d
  | cons {op : Op} {ops : List Op} {d d' d'' : Dict} {r : Option Reply} {rs : List (Option Reply)} :
    Dict.Step fits d r d' op → Dict.Run fits ops d' rs d'' →
      Dict.Run fits (op :: ops) d (r :: rs) d''

/-- Pairs in buckets. -/
structure Table where
  pairs : UInt8 → List (Bytes × Bytes)
  slot : ∀ {i p}, p ∈ pairs i → xorBytes p.1 = i
  nodup : ∀ i, ((pairs i).map Prod.fst).Nodup

def Table.empty : Table := ⟨fun _ => [], by simp, by simp⟩

def Table.lookup (T : Table) (k : Bytes) : Option Bytes :=
  ((T.pairs (xorBytes k)).find? fun p => p.1 = k).map Prod.snd

def Table.keys (T : Table) : List Bytes := slots.flatMap fun i => (T.pairs i).map Prod.fst

theorem slots_nodup : slots.Nodup := by
  refine List.Nodup.map_on ?_ List.nodup_range
  intro a ha b hb hab
  have hback : ∀ n ∈ List.range 256, (UInt8.ofNat n).toNat = n := by
    intro n hn
    exact UInt8.toNat_ofNat_of_lt' (List.mem_range.mp hn)
  rw [← hback a ha, ← hback b hb, hab]

theorem Table.mem_keys (T : Table) (k : Bytes) :
    k ∈ T.keys ↔ k ∈ (T.pairs (xorBytes k)).map Prod.fst := by
  constructor
  · intro hk
    obtain ⟨i, -, hi⟩ := List.mem_flatMap.mp hk
    obtain ⟨p, hp, rfl⟩ := List.mem_map.mp hi
    rw [T.slot hp]
    exact hi
  · intro hk
    exact List.mem_flatMap.mpr ⟨_, mem_slots _, hk⟩

theorem Table.nodup_keys (T : Table) : T.keys.Nodup := by
  refine List.nodup_flatMap.mpr ⟨fun i _ => T.nodup i, ?_⟩
  apply slots_nodup.imp
  intro i j hij k hi hj
  obtain ⟨p, hp, rfl⟩ := List.mem_map.mp hi
  obtain ⟨q, hq, he⟩ := List.mem_map.mp hj
  apply hij
  rw [← T.slot hp, ← T.slot hq, he]

theorem Table.isSome_lookup (T : Table) (k : Bytes) :
    (T.lookup k).isSome = true ↔ k ∈ (T.pairs (xorBytes k)).map Prod.fst := by
  simp [Table.lookup]

def Table.dict (T : Table) : Dict :=
  ⟨T.keys, T.lookup, T.nodup_keys, fun k => (T.mem_keys k).trans (T.isSome_lookup k).symm⟩

/-- The value of a key among some pairs. -/
def find (ps : List (Bytes × Bytes)) (k : Bytes) : Option Bytes :=
  (ps.find? fun p => p.1 = k).map Prod.snd

theorem find_eq_none {ps : List (Bytes × Bytes)} {k : Bytes} (h : k ∉ ps.map Prod.fst) :
    find ps k = none := by
  rw [find, Option.map_eq_none_iff, List.find?_eq_none]
  intro p hp
  have hne : p.1 ≠ k := by
    rintro rfl
    exact h (List.mem_map_of_mem hp)
  simpa using hne

theorem find_append_of_not_mem {ps : List (Bytes × Bytes)} {k : Bytes} (h : k ∉ ps.map Prod.fst)
    (qs : List (Bytes × Bytes)) : find (ps ++ qs) k = find qs k := by
  have hnone := find_eq_none h
  rw [find, Option.map_eq_none_iff] at hnone
  rw [find, List.find?_append, hnone]
  rfl

@[simp] theorem find_cons_self (k v : Bytes) (ps : List (Bytes × Bytes)) :
    find ((k, v) :: ps) k = some v := by
  simp [find]

/-- A pair counts for no other key. -/
theorem find_skip {k j : Bytes} (hj : j ≠ k) (v : Bytes) (qs rs : List (Bytes × Bytes)) :
    find (qs ++ (k, v) :: rs) j = find (qs ++ rs) j := by
  simp [find, List.find?_append, Ne.symm hj]

/-- Replace the pairs of one bucket. -/
def Table.put (T : Table) (i : UInt8) (ps : List (Bytes × Bytes))
    (hslot : ∀ {p}, p ∈ ps → xorBytes p.1 = i) (hnodup : (ps.map Prod.fst).Nodup) : Table where
  pairs := Function.update T.pairs i ps
  slot := by
    intro j p hp
    by_cases hj : j = i
    · subst hj
      rw [Function.update_self] at hp
      exact hslot hp
    · rw [Function.update_of_ne hj] at hp
      exact T.slot hp
  nodup := by
    intro j
    by_cases hj : j = i
    · subst hj
      rw [Function.update_self]
      exact hnodup
    · rw [Function.update_of_ne hj]
      exact T.nodup j

section Put

variable (T : Table) {i : UInt8} {ps : List (Bytes × Bytes)}
  (hslot : ∀ {p}, p ∈ ps → xorBytes p.1 = i) (hnodup : (ps.map Prod.fst).Nodup)

theorem lookup_put (k : Bytes) :
    (T.put i ps hslot hnodup).lookup k = if xorBytes k = i then find ps k else T.lookup k := by
  rw [Table.lookup, Table.put]
  dsimp only
  split
  · rename_i hk
    rw [hk, Function.update_self, find]
  · rename_i hk
    rw [Function.update_of_ne hk, Table.lookup]

/-- Listing the keys, only the part of the changed bucket changes. -/
theorem keys_put : ∃ us vs, T.keys = us ++ (T.pairs i).map Prod.fst ++ vs ∧
    (T.put i ps hslot hnodup).keys = us ++ ps.map Prod.fst ++ vs := by
  obtain ⟨is, js, hsplit⟩ := List.append_of_mem (mem_slots i)
  have hn := slots_nodup
  rw [hsplit] at hn
  obtain ⟨-, hij, hdis⟩ := List.nodup_append.mp hn
  have hsame : ∀ ks : List UInt8, i ∉ ks →
      (ks.flatMap fun j => (Function.update T.pairs i ps j).map Prod.fst) =
        ks.flatMap fun j => (T.pairs j).map Prod.fst := by
    intro ks hks
    apply List.flatMap_congr
    intro j hj
    rw [Function.update_of_ne (ne_of_mem_of_not_mem hj hks)]
  refine ⟨is.flatMap fun j => (T.pairs j).map Prod.fst,
    js.flatMap fun j => (T.pairs j).map Prod.fst, ?_, ?_⟩
  · simp [Table.keys, hsplit]
  · rw [Table.keys, hsplit, List.flatMap_append, List.flatMap_cons]
    simp only [Table.put]
    rw [hsame is, hsame js, Function.update_self, List.append_assoc]
    · exact (List.nodup_cons.mp hij).1
    · intro hi
      exact hdis i hi i (by simp) rfl

end Put

/-- A table with one more pair. -/
theorem Table.exists_add (T : Table) {k : Bytes} (v : Bytes)
    (hk : k ∉ (T.pairs (xorBytes k)).map Prod.fst) :
    ∃ T' : Table, T'.pairs = Function.update T.pairs (xorBytes k) (T.pairs (xorBytes k) ++ [(k, v)]) ∧
      T'.lookup = Function.update T.lookup k (some v) ∧ T'.keys.length = T.keys.length + 1 := by
  have hslot : ∀ {p}, p ∈ T.pairs (xorBytes k) ++ [(k, v)] → xorBytes p.1 = xorBytes k := by
    intro p hp
    rcases List.mem_append.mp hp with hp | hp
    · exact T.slot hp
    · rw [List.mem_singleton.mp hp]
  have hnodup : ((T.pairs (xorBytes k) ++ [(k, v)]).map Prod.fst).Nodup := by
    rw [List.map_append, List.map_singleton, List.nodup_append]
    refine ⟨T.nodup _, by simp, ?_⟩
    intro a ha b hb
    rw [List.mem_singleton.mp hb]
    exact ne_of_mem_of_not_mem ha hk
  refine ⟨T.put _ _ hslot hnodup, rfl, ?_, ?_⟩
  · funext j
    rw [lookup_put]
    by_cases hj : j = k
    · subst hj
      rw [if_pos rfl, Function.update_self, find_append_of_not_mem hk, find_cons_self]
    · rw [Function.update_of_ne hj, find_skip hj, List.append_nil]
      split
      · rename_i hx
        rw [← hx]
        rfl
      · rfl
  · obtain ⟨us, vs, hold, hnew⟩ := keys_put T hslot hnodup
    rw [hold, hnew]
    simp only [List.length_append, List.length_map, List.length_cons, List.length_nil]
    omega

/-- A table with another value for a key. -/
theorem Table.exists_overwrite (T : Table) {k v : Bytes} (w : Bytes) {qs rs : List (Bytes × Bytes)}
    (hP : T.pairs (xorBytes k) = qs ++ (k, v) :: rs) (hq : k ∉ qs.map Prod.fst) :
    ∃ T' : Table, T'.pairs = Function.update T.pairs (xorBytes k) (qs ++ (k, w) :: rs) ∧
      T'.lookup = Function.update T.lookup k (some w) ∧ T'.keys = T.keys := by
  have hfst : (qs ++ (k, w) :: rs).map Prod.fst = (T.pairs (xorBytes k)).map Prod.fst := by
    simp [hP]
  have hslot : ∀ {p}, p ∈ qs ++ (k, w) :: rs → xorBytes p.1 = xorBytes k := by
    intro p hp
    have hmem := List.mem_map_of_mem (f := Prod.fst) hp
    rw [hfst] at hmem
    obtain ⟨q, hq, he⟩ := List.mem_map.mp hmem
    rw [← he]
    exact T.slot hq
  have hnodup : ((qs ++ (k, w) :: rs).map Prod.fst).Nodup := hfst ▸ T.nodup _
  refine ⟨T.put _ _ hslot hnodup, rfl, ?_, ?_⟩
  · funext j
    rw [lookup_put]
    by_cases hj : j = k
    · subst hj
      rw [if_pos rfl, Function.update_self, find_append_of_not_mem hq, find_cons_self]
    · rw [Function.update_of_ne hj, find_skip hj]
      split
      · rename_i hx
        rw [← find_skip hj v, ← hP, ← hx]
        rfl
      · rfl
  · obtain ⟨us, vs, hold, hnew⟩ := keys_put T hslot hnodup
    rw [hold, hnew, hfst]

/-- A table without one of its keys. -/
theorem Table.exists_remove (T : Table) {k v : Bytes} {qs rs : List (Bytes × Bytes)}
    (hP : T.pairs (xorBytes k) = qs ++ (k, v) :: rs) :
    ∃ T' : Table, T'.pairs = Function.update T.pairs (xorBytes k) (qs ++ rs) ∧
      T'.lookup = Function.update T.lookup k none ∧ T'.keys.length = T.keys.length - 1 := by
  have hsub : List.Sublist (qs ++ rs) (T.pairs (xorBytes k)) := by
    rw [hP]
    exact List.Sublist.append_left (List.sublist_cons_self _ _) _
  have hn := T.nodup (xorBytes k)
  have hslot : ∀ {p}, p ∈ qs ++ rs → xorBytes p.1 = xorBytes k := fun hp => T.slot (hsub.subset hp)
  have hnodup : ((qs ++ rs).map Prod.fst).Nodup := hn.sublist (hsub.map _)
  have hgone : k ∉ (qs ++ rs).map Prod.fst := by
    rw [hP, List.map_append, List.map_cons] at hn
    rw [List.map_append]
    exact (List.nodup_middle.mp hn).notMem
  refine ⟨T.put _ _ hslot hnodup, rfl, ?_, ?_⟩
  · funext j
    rw [lookup_put]
    by_cases hj : j = k
    · subst hj
      rw [if_pos rfl, Function.update_self, find_eq_none hgone]
    · rw [Function.update_of_ne hj]
      split
      · rename_i hx
        rw [← find_skip hj v, ← hP, ← hx]
        rfl
      · rfl
  · obtain ⟨us, vs, hold, hnew⟩ := keys_put T hslot hnodup
    rw [hold, hnew, hP]
    simp only [List.length_append, List.length_map, List.length_cons]
    omega


/-- The store holds the table, and no value in it is one of the keys in use. -/
structure Stores (ks : List Bytes) (s : Store) (c : Addr → Option Chain) (T : Table) : Prop where
  tab : PairTab s c T.pairs
  count : s.hash.count = T.keys.length
  key : ∀ {i p}, p ∈ T.pairs i → NulFree p.1 ∧ fitsString p.1 = true
  value : ∀ {i p}, p ∈ T.pairs i → NulFree p.2 ∧ p.2 ∉ ks

variable {ks : List Bytes} {s : Store} {c : Addr → Option Chain} {T : Table}

/-- The search for a key in use ends at that key or nowhere. -/
theorem Stores.search (S : Stores ks s c T) (k : CText) (hk : k.1 ∈ ks) :
    (Clear k.1 (T.pairs (xorBytes k.1)) ∧ T.lookup k.1 = none) ∨
    ∃ qs v rs, T.pairs (xorBytes k.1) = qs ++ (k.1, v) :: rs ∧ Clear k.1 qs ∧
      k.1 ∉ qs.map Prod.fst ∧ T.lookup k.1 = some v := by
  have hkeys : ∀ {ps}, Clear k.1 ps → (∀ p ∈ ps, p ∈ T.pairs (xorBytes k.1)) →
      k.1 ∉ ps.map Prod.fst := by
    intro ps hclear hsub hmem
    obtain ⟨p, hp, he⟩ := List.mem_map.mp hmem
    have hne := (clear_iff.mp hclear p hp).1
    rw [cText_of_nulFree (S.key (hsub p hp)).1] at hne
    exact hne he
  rcases search_cases k.1 (T.pairs (xorBytes k.1)) with
    hclear | ⟨qs, t, v, rs, hP, hqs, ht⟩ | ⟨qs, a, t, rs, hP, hqs, ha, ht⟩
  · exact Or.inl ⟨hclear, find_eq_none (hkeys hclear fun p hp => hp)⟩
  · have htk : t = k.1 := by
      rw [← ht, cText_of_nulFree]
      exact (S.key (i := xorBytes k.1) (p := (t, v)) (by simp [hP])).1
    subst htk
    have hq := hkeys hqs (fun p hp => by simp [hP, hp])
    refine Or.inr ⟨qs, v, rs, hP, hqs, hq, ?_⟩
    change find (T.pairs (xorBytes k.1)) k.1 = some v
    rw [hP, find_append_of_not_mem hq, find_cons_self]
  · obtain ⟨hn, hnot⟩ := S.value (i := xorBytes k.1) (p := (a, t)) (by simp [hP])
    rw [cText_of_nulFree hn] at ht
    exact absurd (ht ▸ hk) hnot

/-- The store and the table after a change of one bucket. -/
theorem Stores.put (S : Stores ks s c T) {i : UInt8} {ps : List (Bytes × Bytes)} {T' : Table}
    (hpairs : T'.pairs = Function.update T.pairs i ps) {s' : Store} {c' : Addr → Option Chain}
    (htab : PairTab s' c' (Function.update T.pairs i ps)) (hcount : s'.hash.count = T'.keys.length)
    (hps : ∀ p ∈ ps, p ∈ T.pairs i ∨
      ((NulFree p.1 ∧ fitsString p.1 = true) ∧ NulFree p.2 ∧ p.2 ∉ ks)) :
    Stores ks s' c' T' := by
  have hold : ∀ {j p}, p ∈ T'.pairs j →
      (NulFree p.1 ∧ fitsString p.1 = true) ∧ NulFree p.2 ∧ p.2 ∉ ks := by
    intro j p hp
    rw [hpairs] at hp
    by_cases hj : j = i
    · subst hj
      rw [Function.update_self] at hp
      rcases hps p hp with hold | hnew
      · exact ⟨S.key hold, S.value hold⟩
      · exact hnew
    · rw [Function.update_of_ne hj] at hp
      exact ⟨S.key hp, S.value hp⟩
  refine ⟨?_, hcount, fun hp => (hold hp).1, fun hp => (hold hp).2⟩
  rw [hpairs]
  exact htab

/-- The call replies and ends as the finite map says. -/
def InStep (ks : List Bytes) (op : Op) : Prop :=
  ∀ {s c T}, Stores ks s c T → ∃ r s' c' T', (attempt (exec op)).run s = .ok r s' ∧
    Stores ks s' c' T' ∧ Dict.Step fitsString T.dict r T'.dict op

theorem mem_dict_keys (T : Table) (k : Bytes) : k ∈ T.dict.keys ↔ (T.lookup k).isSome = true :=
  T.dict.mem_keys k

theorem inStep_set (key : CText) (value : WfStr) (hkey : key.1 ∈ ks) (hn : NulFree value.1.text)
    (hv : value.1.text ∉ ks) : InStep ks (.set key value) := by
  intro s c T S
  rcases S.search key hkey with ⟨hclear, hnone⟩ | ⟨qs, v, rs, hP, hqs, hq, hsome⟩
  · have hnot : key.1 ∉ (T.pairs (xorBytes key.1)).map Prod.fst := by
      rw [← T.isSome_lookup, hnone]
      decide
    obtain ⟨hok, hlong⟩ := set_clear S.tab key hclear value
    cases hfit : fitsString key.1 with
    | true =>
      obtain ⟨s', c', hrun, htab, hcount, -⟩ := hok hfit
      obtain ⟨T', hpairs, hlookup, hkeys⟩ := T.exists_add value.1.text hnot
      refine ⟨some .done, s', c', T', ?_, S.put hpairs htab ?_ ?_, ?_⟩
      · exact run_attempt_ok (run_bind_ok hrun)
      · rw [hcount, hkeys, S.count]
      · intro p hp
        rcases List.mem_append.mp hp with hp | hp
        · exact Or.inl hp
        · rw [List.mem_singleton.mp hp]
          exact Or.inr ⟨⟨key.2, hfit⟩, hn, hv⟩
      · refine (if_pos hfit).mpr ⟨rfl, hlookup, ?_⟩
        intro hmem
        rw [mem_dict_keys, hnone] at hmem
        cases hmem
    | false =>
      obtain ⟨s', c', hrun, htab, hcount, -⟩ := hlong hfit
      refine ⟨none, s', c', T, ?_, ⟨htab, hcount.trans S.count, S.key, S.value⟩, ?_⟩
      · exact run_attempt_thrown (run_bind_thrown hrun)
      · simp [Dict.Step, hfit]
  · have hfit : fitsString key.1 = true :=
      (S.key (i := xorBytes key.1) (p := (key.1, v)) (by simp [hP])).2
    obtain ⟨s', c', hrun, htab, hcount, -⟩ :=
      set_key S.tab key hP hqs (cText_of_nulFree key.2) value
    obtain ⟨T', hpairs, hlookup, hkeys⟩ := T.exists_overwrite value.1.text hP hq
    refine ⟨some .done, s', c', T', ?_, S.put hpairs htab ?_ ?_, ?_⟩
    · exact run_attempt_ok (run_bind_ok hrun)
    · rw [hcount, hkeys, S.count]
    · intro p hp
      simp only [List.mem_append, List.mem_cons] at hp
      rcases hp with hp | rfl | hp
      · exact Or.inl (by simp [hP, hp])
      · exact Or.inr ⟨⟨key.2, hfit⟩, hn, hv⟩
      · exact Or.inl (by simp [hP, hp])
    · exact (if_pos hfit).mpr ⟨rfl, hlookup, fun _ => hkeys⟩

/-- `hash_get` of a key in use. -/
theorem Stores.get (S : Stores ks s c T) (key : CText) (hkey : key.1 ∈ ks) {dest : Str}
    {old : Bytes} (hd : Holds dest old) :
    (T.lookup key.1 = none ∧ (hashGet dest (charArray key.1)).run s = .thrown s) ∨
    ∃ v d, T.lookup key.1 = some v ∧ (hashGet dest (charArray key.1)).run s = .ok d s ∧
      Holds d v := by
  have hc := cString_charArray key.1 key.2
  rcases S.search key hkey with ⟨hclear, hnone⟩ | ⟨qs, v, rs, hP, hqs, -, hsome⟩
  · exact Or.inl ⟨hnone, hashGet_absent S.tab hc hclear dest⟩
  · have hB : flat (T.pairs (xorBytes key.1)) = flat qs ++ key.1 :: v :: flat rs := by simp [hP]
    obtain ⟨d, hrun, hd'⟩ := hashGet_found S.tab hc hB hqs (cText_of_nulFree key.2) hd
    exact Or.inr ⟨v, d, hsome, hrun, hd'⟩

theorem inStep_get (dest : WfStr) (key : CText) (hkey : key.1 ∈ ks) : InStep ks (.get dest key) := by
  intro s c T S
  rcases S.get key hkey dest.2 with ⟨hnone, hrun⟩ | ⟨v, d, hsome, hrun, hd⟩
  · refine ⟨none, s, c, T, run_attempt_thrown (run_bind_thrown hrun), S, ?_⟩
    simp [Dict.Step, Table.dict, hnone]
  · refine ⟨some (.text v), s, c, T, run_attempt_ok ?_, S, ?_⟩
    · rw [exec, run_bind_ok hrun, hd.text]
      rfl
    · simp [Dict.Step, Table.dict, hsome]

theorem inStep_delete (key : CText) (hkey : key.1 ∈ ks) : InStep ks (.delete key) := by
  intro s c T S
  rcases S.search key hkey with ⟨hclear, hnone⟩ | ⟨qs, v, rs, hP, hqs, -, hsome⟩
  · refine ⟨none, s, c, T, ?_, S, ?_⟩
    · exact run_attempt_thrown (run_bind_thrown
        (hashDelete_absent S.tab (cString_charArray key.1 key.2) hclear))
    · refine ⟨by simp [Table.dict, hnone], ?_, fun _ => rfl⟩
      rw [← hnone]
      exact (Function.update_eq_self _ _).symm
  · obtain ⟨s', c', hrun, htab, hcount, -⟩ :=
      delete_key S.tab key hP hqs (cText_of_nulFree key.2)
    obtain ⟨T', hpairs, hlookup, hkeys⟩ := T.exists_remove hP
    refine ⟨some .done, s', c', T', ?_, S.put hpairs htab ?_ ?_, ?_⟩
    · exact run_attempt_ok (run_bind_ok hrun)
    · rw [hcount, hkeys, S.count]
    · intro p hp
      apply Or.inl
      rcases List.mem_append.mp hp with hp | hp
      · simp [hP, hp]
      · simp [hP, hp]
    · refine ⟨by simp [Table.dict, hsome], hlookup, ?_⟩
      intro hmem
      rw [mem_dict_keys, hsome] at hmem
      exact absurd rfl hmem

theorem dict_empty : Table.empty.dict = Dict.empty := by
  apply Dict.ext
  · simp [Table.dict, Table.keys, Table.empty, Dict.empty]
  · funext k
    simp [Table.dict, Table.lookup, Table.empty, Dict.empty]

theorem stores_empty (htab : PairTab s c (fun _ => [])) (hcount : s.hash.count = 0) :
    Stores ks s c Table.empty := by
  refine ⟨htab, ?_, ?_, ?_⟩
  · rw [hcount]
    simp [Table.keys, Table.empty]
  · intro i p hp
    cases hp
  · intro i p hp
    cases hp

theorem inStep_truncate : InStep ks .truncate := by
  intro s c T S
  obtain ⟨s', c', hrun, htab, hcount, -⟩ := hashTruncate_tab S.tab
  refine ⟨some .done, s', c', Table.empty, ?_, stores_empty htab hcount, rfl, dict_empty⟩
  exact run_attempt_ok (run_bind_ok hrun)

theorem inStep_keyExists (key : CText) (hkey : key.1 ∈ ks) : InStep ks (.keyExists key) := by
  intro s c T S
  obtain ⟨dest, hnew, hd, -⟩ := strNew_holds s
  have hreply : (hashKeyExists (charArray key.1)).run s = .ok (T.lookup key.1).isSome s := by
    rw [hashKeyExists, run_bind_ok hnew]
    rcases S.get key hkey hd with ⟨hnone, hrun⟩ | ⟨v, d, hsome, hrun, -⟩
    · rw [run_bind_ok (run_attempt_thrown hrun), hnone]
      rfl
    · rw [run_bind_ok (run_attempt_ok hrun), hsome]
      rfl
  refine ⟨some (.flag (T.lookup key.1).isSome), s, c, T, run_attempt_ok ?_, S, ?_, rfl⟩
  · rw [exec, run_bind_ok hreply]
    rfl
  · congr 2
    rw [Bool.eq_iff_iff, decide_eq_true_iff, mem_dict_keys]

/-- The reading loop of the client. -/
theorem loop_read (xs : Chain) (h : Heap) (fuel : Nat) (ts : List Bytes)
    (hp : Path h.entry xs none) (hf : xs.length < fuel) :
    (loop readStep fuel (first xs none, ts)).run h = .ok (ts ++ texts xs) h := by
  induction xs generalizing fuel ts with
  | nil =>
    obtain ⟨fuel, rfl⟩ : ∃ n, fuel = n + 1 := ⟨fuel - 1, by simp at hf; omega⟩
    rw [texts_nil, List.append_nil]
    exact run_loop_inr rfl
  | cons x xs ih =>
    obtain ⟨a, v⟩ := x
    obtain ⟨fuel, rfl⟩ : ∃ n, fuel = n + 1 := ⟨fuel - 1, by simp at hf; omega⟩
    obtain ⟨⟨p, ha⟩, hp'⟩ := hp
    have hstep : (readStep (some a, ts)).run h = .ok (.inl (first xs none, ts ++ [v.text])) h := by
      simp [readStep, ha]
    rw [first_cons, run_loop_inl hstep, ih fuel _ hp' (by simpa using hf)]
    simp

theorem readList_rep {h : Heap} (r : Rep h c) {l : Addr} {xs : Chain} (hl : c l = some xs) :
    (readList l).run h = .ok (texts xs) h := by
  simp only [readList, run_bind_loadList, r.list_eq hl, run_bind_get, header]
  exact loop_read xs h _ [] (r.seg hl).path (Nat.lt_succ_of_le (r.length_le hl))

/-- The pairs of the table survive changes to lists that are no buckets. -/
theorem Stores.other (S : Stores ks s c T) {l : Addr} (hl : ∀ i, s.hash.bucket i ≠ some l)
    {h' : Heap} {o : Option Chain} (ho : l = out → o.isSome = true)
    (r : Rep h' (Function.update c l o)) :
    Stores ks { s with heap := h' } (Function.update c l o) T :=
  ⟨S.tab.other hl ⟨h', s.hash⟩ rfl ho r, S.count, S.key, S.value⟩

/-- Listing one part of all pairs into the client's list. -/
theorem listing_run {P : UInt8 → List (Bytes × Bytes)} (T : PairTab s c P) {second : Bool} {pick : Addr → Act Heap Str}
    (hpick : Picks second pick) :
    ∃ h' ys, (do
        hashList pick out
        let ts ← onHeap (readList out)
        pure (Reply.texts ts) : Act Store Reply).run s =
        .ok (.texts (slots.flatMap fun i => (P i).map (part second))) { s with heap := h' } ∧
      Rep h' (Function.update c out (some ys)) := by
  obtain ⟨xs, hxs⟩ := Option.isSome_iff_exists.mp T.client
  obtain ⟨h', ys, hrun, hys, r⟩ := hashList_run hpick T T.apart hxs
  refine ⟨h', ys, ?_, r⟩
  rw [run_bind_ok hrun, run_bind_ok (run_onHeap_ok (readList_rep r (Function.update_self _ _ _))),
    hys]
  rfl

theorem inStep_getKeys : InStep ks .getKeys := by
  intro s c T S
  obtain ⟨h', ys, hrun, r⟩ := listing_run S.tab picks_entryValue
  exact ⟨_, _, _, T, run_attempt_ok hrun, S.other S.tab.apart (fun _ => rfl) r, rfl, rfl⟩

theorem Table.find_pair (T : Table) {i : UInt8} {p : Bytes × Bytes} (hp : p ∈ T.pairs i) :
    T.lookup p.1 = some p.2 := by
  obtain ⟨qs, rs, hsplit⟩ := List.append_of_mem hp
  have hn := T.nodup i
  rw [hsplit, List.map_append, List.map_cons, List.nodup_append] at hn
  change find (T.pairs (xorBytes p.1)) p.1 = some p.2
  rw [T.slot hp, hsplit, find_append_of_not_mem, find_cons_self]
  intro hq
  exact hn.2.2 p.1 hq p.1 (by simp) rfl

/-- The values in the order of the buckets are those of the keys in that order. -/
theorem values_dict (T : Table) :
    T.dict.values = slots.flatMap fun i => (T.pairs i).map (part true) := by
  change T.keys.map (fun k => (T.lookup k).getD []) = _
  rw [Table.keys, List.map_flatMap]
  apply List.flatMap_congr
  intro i _
  rw [List.map_map]
  apply List.map_congr_left
  intro p hp
  simp [T.find_pair hp, part]

theorem inStep_getValues : InStep ks .getValues := by
  intro s c T S
  obtain ⟨h', ys, hrun, r⟩ := listing_run S.tab picks_nextValue
  refine ⟨_, _, _, T, run_attempt_ok hrun, S.other S.tab.apart (fun _ => rfl) r, ?_, rfl⟩
  rw [values_dict]

/-- A list that is not there yet is neither a bucket nor the client's. -/
theorem fresh_apart {P : UInt8 → List (Bytes × Bytes)} (T : PairTab s c P) {l : Addr} (hl : c l = none) :
    (∀ i, s.hash.bucket i ≠ some l) ∧ l ≠ out := by
  constructor
  · intro i hi
    obtain ⟨xs, hxs, -⟩ := T.chain hi
    rw [hl] at hxs
    cases hxs
  · rintro rfl
    have hclient := T.client
    rw [hl] at hclient
    cases hclient

/-- Looking for a value among all of them, in a list that is gone afterwards. -/
theorem valueExists_run {P : UInt8 → List (Bytes × Bytes)} (T : PairTab s c P) (value : CText) :
    ∃ h', (hashValueExists (charArray value.1)).run s =
        .ok ((slots.flatMap fun i => (P i).map (part true)).any fun t => cText t = value.1) { s with heap := h' } ∧
      c s.heap.fresh = none ∧ Rep h' (Function.update c s.heap.fresh none) := by
  obtain ⟨h₁, hnew, hnone, r₁⟩ := listNew_rep T.rep
  obtain ⟨hbucket, hout⟩ := fresh_apart T hnone
  have T₁ : PairTab { s with heap := h₁ } _ P := T.other hbucket ⟨h₁, s.hash⟩ rfl (fun he => absurd he hout) r₁
  obtain ⟨h₂, ys, hvalues, hys, r₂⟩ :=
    hashList_run picks_nextValue T₁ hbucket (Function.update_self _ _ _)
  have hfind := listFind_rep r₂ (Function.update_self _ _ _) (cString_charArray value.1 value.2)
  obtain ⟨h₃, hdestroy, r₃⟩ := listDestroy_rep r₂ (Function.update_self _ _ _)
  rw [Function.update_idem, Function.update_idem] at r₃
  refine ⟨h₃, ?_, hnone, r₃⟩
  rw [hashValueExists, run_bind_ok (run_onHeap_ok hnew), hashGetValues, run_bind_ok hvalues,
    run_bind_ok (run_onHeap_ok hfind), run_bind_ok (run_onHeap_ok hdestroy), hys]
  rfl

theorem inStep_valueExists (value : CText) : InStep ks (.valueExists value) := by
  intro s c T S
  obtain ⟨h', hrun, hnone, r⟩ := valueExists_run S.tab value
  obtain ⟨hbucket, hout⟩ := fresh_apart S.tab hnone
  refine ⟨_, _, _, T, run_attempt_ok (run_bind_ok hrun), S.other hbucket (fun he => absurd he hout) r, ?_, rfl⟩
  rw [values_dict]
  congr 2
  rw [Bool.eq_iff_iff, List.any_eq_true, decide_eq_true_iff]
  -- No value in the table has a NUL in it, so comparing up to the first NUL is comparing all.
  have hsame : ∀ t ∈ slots.flatMap fun i => (T.pairs i).map (part true), cText t = t := by
    intro t ht
    obtain ⟨i, -, hi⟩ := List.mem_flatMap.mp ht
    obtain ⟨p, hp, rfl⟩ := List.mem_map.mp hi
    exact cText_of_nulFree (S.value hp).1
  constructor
  · rintro ⟨t, ht, he⟩
    rw [← of_decide_eq_true he, hsame t ht]
    exact ht
  · intro hmem
    exact ⟨value.1, hmem, decide_eq_true (hsame _ hmem)⟩

/-- The keys that the calls of a run are made with. -/
def Op.key : Op → Option Bytes
  | .set key _ => some key.1
  | .get _ key => some key.1
  | .delete key => some key.1
  | .keyExists key => some key.1
  | _ => none

/-- The value that a call stores. -/
def Op.value : Op → Option Bytes
  | .set _ value => some value.1.text
  | _ => none

/-- The call uses keys from `ks` and stores nothing that is equal to one of them. -/
def Op.Apart (ks : List Bytes) (op : Op) : Prop :=
  (∀ k ∈ op.key, k ∈ ks) ∧ ∀ v ∈ op.value, NulFree v ∧ v ∉ ks

theorem inStep {op : Op} (h : op.Apart ks) : InStep ks op := by
  obtain ⟨hk, hv⟩ := h
  cases op with
  | set key value => exact inStep_set key value (hk _ rfl) (hv _ rfl).1 (hv _ rfl).2
  | get dest key => exact inStep_get dest key (hk _ rfl)
  | delete key => exact inStep_delete key (hk _ rfl)
  | truncate => exact inStep_truncate
  | keyExists key => exact inStep_keyExists key (hk _ rfl)
  | valueExists value => exact inStep_valueExists value
  | getKeys => exact inStep_getKeys
  | getValues => exact inStep_getValues

/-- Every run of such calls is a run on a finite map. -/
theorem execAll_stores (ops : List Op) (hops : ∀ op ∈ ops, op.Apart ks) (S : Stores ks s c T) :
    ∃ rs s' c' T', (execAll ops).run s = .ok rs s' ∧ Stores ks s' c' T' ∧
      Dict.Run fitsString ops T.dict rs T'.dict := by
  induction ops generalizing s c T with
  | nil => exact ⟨[], s, c, T, rfl, S, .nil _⟩
  | cons op ops ih =>
    obtain ⟨r, s₁, c₁, T₁, hrun, S₁, hstep⟩ := inStep (hops op (by simp)) S
    obtain ⟨rs, s₂, c₂, T₂, hrest, S₂, hsteps⟩ :=
      ih (fun op hop => hops op (List.mem_cons_of_mem _ hop)) S₁
    exact ⟨r :: rs, s₂, c₂, T₂, run_attemptAll_cons hrun hrest, S₂, .cons hstep hsteps⟩

/-- The store holds the map: every bucket alternates keys and values, every key is in the bucket of
its hash and occurs once, and the counter is the number of keys. -/
def Refines (s : Store) (d : Dict) : Prop :=
  ∃ (c : Addr → Option Chain) (T : Table), PairTab s c T.pairs ∧
    s.hash.count = d.keys.length ∧ d = T.dict

/-- Any run on a new table, in which no value is equal to a key used, is a run on a finite map in
which a key too long for a string object cannot be set. `hash_get` and `hash_delete` of an absent
key leave every bit of the store as it was. -/
theorem hash_runs_refine_maps (ops : List Op)
    (hvalues : ∀ v ∈ ops.filterMap Op.value, NulFree v ∧ v ∉ ops.filterMap Op.key) :
    ∃ rs s d, (execAll ops).run start = .ok rs s ∧ Dict.Run fitsString ops Dict.empty rs d ∧
      Refines s d ∧ ∀ key : CText, key.1 ∈ ops.filterMap Op.key → key.1 ∉ d.keys →
        (∀ dest : WfStr, (hashGet dest.1 (charArray key.1)).run s = .thrown s) ∧
        (hashDelete (charArray key.1)).run s = .thrown s := by
  have hapart : ∀ op ∈ ops, op.Apart (ops.filterMap Op.key) := by
    intro op hop
    refine ⟨?_, ?_⟩
    · intro k hk
      exact List.mem_filterMap.mpr ⟨op, hop, hk⟩
    · intro v hv
      exact hvalues v (List.mem_filterMap.mpr ⟨op, hop, hv⟩)
  have S₀ : Stores (ops.filterMap Op.key) start _ Table.empty := stores_empty tab_start rfl
  obtain ⟨rs, s, c, T, hrun, S, hsteps⟩ := execAll_stores ops hapart S₀
  rw [dict_empty] at hsteps
  refine ⟨rs, s, T.dict, hrun, hsteps, ⟨c, T, S.tab, S.count, rfl⟩, ?_⟩
  intro key hused habs
  have hc := cString_charArray key.1 key.2
  rw [mem_dict_keys] at habs
  rcases S.search key hused with ⟨hclear, -⟩ | ⟨qs, v, rs, -, -, -, hsome⟩
  · refine ⟨?_, hashDelete_absent S.tab hc hclear⟩
    intro dest
    exact hashGet_absent S.tab hc hclear dest.1
  · rw [hsome] at habs
    exact absurd rfl habs

theorem hash_runs_refine_maps_ab :
    ∃ rs s d, (execAll [.set ab (ofText [120]), .set ba (ofText [121]), .get (ofText []) ab,
        .delete ab, .get (ofText []) ab, .getKeys, .getValues]).run start = .ok rs s ∧
      Dict.Run fitsString [.set ab (ofText [120]), .set ba (ofText [121]), .get (ofText []) ab,
        .delete ab, .get (ofText []) ab, .getKeys, .getValues] Dict.empty rs d ∧ Refines s d := by
  obtain ⟨rs, s, d, hrun, hsteps, href, -⟩ := hash_runs_refine_maps
    [.set ab (ofText [120]), .set ba (ofText [121]), .get (ofText []) ab, .delete ab,
      .get (ofText []) ab, .getKeys, .getValues] (by decide)
  exact ⟨rs, s, d, hrun, hsteps, href⟩

/-- A key of `STRING_MAX` bytes. -/
def longKey : CText := ⟨List.replicate stringMax 97, by simp [NulFree, List.mem_replicate]⟩

/-- A finite map takes any key, but `hash_set` does not. -/
theorem hash_set_refuses_long_key :
    ¬ ∀ ops : List Op,
      (∀ v ∈ ops.filterMap Op.value, NulFree v ∧ v ∉ ops.filterMap Op.key) →
      ∃ rs s d, (execAll ops).run start = .ok rs s ∧
        Dict.Run (fun _ => true) ops Dict.empty rs d ∧ Refines s d := by
  intro h
  have hne : ([] : Bytes) ≠ longKey.1 := by
    intro he
    have hlen : 0 = stringMax := (congrArg List.length he).trans List.length_replicate
    exact absurd hlen (by decide)
  have hvalues : ∀ v ∈ [Op.set longKey (ofText [])].filterMap Op.value,
      NulFree v ∧ v ∉ [Op.set longKey (ofText [])].filterMap Op.key := by
    intro v hv
    obtain rfl : v = [] := by simpa [Op.value, ofText, Str.text] using hv
    refine ⟨by decide, ?_⟩
    intro hmem
    obtain ⟨op, hop, hkey⟩ := List.mem_filterMap.mp hmem
    rw [List.mem_singleton.mp hop] at hkey
    exact hne (Option.some.inj hkey).symm
  obtain ⟨rs, s, d, hrun, hsteps, -⟩ := h _ hvalues
  have hfit : fitsString longKey.1 = false := by simp [fitsString, longKey]
  have T : PairTab start _ (fun _ => []) := tab_start
  obtain ⟨s', c', hset, -⟩ := (set_clear T longKey (clear_nil _) (ofText [])).2 hfit
  have hfail : (execAll [.set longKey (ofText [])]).run start = .ok [none] s' :=
    run_attemptAll_cons (run_attempt_thrown (run_bind_thrown hset)) rfl
  rw [hfail] at hrun
  cases hrun
  cases hsteps with
  | cons hstep hrest => exact absurd hstep.1 (by decide)

end NcHash
