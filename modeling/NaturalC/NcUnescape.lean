import NaturalC.NcEscape

/-!
# How far unescaping reads

For every code that `sscanf(3)` accepts, the loop of `str_unescape` goes three characters on,
even when it had only one digit to read. With one digit at the end of the text it steps over
the NUL. The texts on which this happens are those that end in a percent sign and one digit,
with the loop coming to that percent sign.
-/
namespace NcString

open Throwing Throwing.Act

/-- The places that the loop of `str_unescape` reads the source at. `sscanf(3)` reads on from the
place of the percent sign up to the next NUL. -/
def unescapeReads (mem : Bytes) : Nat → Nat → Str → List Nat
  | 0, _, _ => []
  | n + 1, i, s => i :: match (unescapeRound mem i).run s with
    | .ok (.inl j) t => unescapeReads mem n j t
    | _ => []

/-- A string object from `str_new`. -/
def newString : Str := ((strNew true true : Act Unit Str).run ()).value.getD emptyString

/-- The places that `str_unescape` reads its source at. -/
def readsOf (src : Str) : List Nat :=
  if src.len = 0 then [] else (src.value.map fun mem => unescapeReads mem (mem.length + 1) 0 newString).getD []

/-- From the start of a text, the loop comes to the place behind its first part. -/
inductive Walked : Bytes → Bytes → Prop where
  | nil (w : Bytes) : Walked [] w
  | plain {c : UInt8} {u w : Bytes} (hc : c ≠ 0) (hp : c = 37 → scanHex (cText (u ++ w)) = none)
      (h : Walked u w) : Walked (c :: u) w
  | code {a b : UInt8} {u w : Bytes} (hc : (scanHex (cText (a :: b :: u ++ w))).isSome)
      (h : Walked u w) : Walked (37 :: a :: b :: u) w

/-- The text ends in a percent sign and one hexadecimal digit, and the loop comes there. -/
def Overrun (text : Bytes) : Prop :=
  ∃ u x, text = u ++ [37, x] ∧ (hexValue x).isSome ∧ Walked u [37, x]

/-- With one character left, a code is read exactly when it is a digit. -/
theorem scanHex_single (x : UInt8) : (scanHex (cText [x])).isSome ↔ (hexValue x).isSome := by
  have hlt : x.toNat < 256 := x.toNat_lt_size
  have hall : ∀ n < 256, (scanHex (cText [UInt8.ofNat n])).isSome ↔ (hexValue (UInt8.ofNat n)).isSome := by
    decide +kernel
  have hx := hall x.toNat hlt
  rwa [UInt8.ofNat_toNat] at hx

theorem overrun_nil : ¬ Overrun [] := by
  rintro ⟨u, x, h, -⟩
  simp at h

theorem overrun_nul (w : Bytes) : ¬ Overrun (0 :: w) := by
  rintro ⟨u, x, h, -, hw⟩
  cases hw with
  | nil => cases h
  | plain hc hp hw =>
    obtain ⟨rfl, -⟩ := List.cons.inj h
    exact hc rfl
  | code hc hw => cases h

/-- A character that is taken as it is. -/
theorem overrun_plain {c : UInt8} {w : Bytes} (hc : c ≠ 0) (hp : c = 37 → scanHex (cText w) = none) :
    Overrun (c :: w) ↔ Overrun w := by
  constructor
  · rintro ⟨u, x, h, hx, hw⟩
    cases hw with
    | nil =>
      obtain ⟨rfl, rfl⟩ := List.cons.inj h
      have hsome := (scanHex_single x).mpr hx
      rw [hp rfl] at hsome
      cases hsome
    | plain hc' hp' hw =>
      rw [List.cons_append] at h
      obtain ⟨rfl, rfl⟩ := List.cons.inj h
      exact ⟨_, x, rfl, hx, hw⟩
    | code hcode hw =>
      rw [List.cons_append] at h
      obtain ⟨rfl, rfl⟩ := List.cons.inj h
      rw [hp rfl] at hcode
      cases hcode
  · rintro ⟨u, x, rfl, hx, hw⟩
    exact ⟨c :: u, x, rfl, hx, .plain hc hp hw⟩

/-- A code with two characters behind the percent sign. -/
theorem overrun_code {a b : UInt8} {w : Bytes} (hcode : (scanHex (cText (a :: b :: w))).isSome) :
    Overrun (37 :: a :: b :: w) ↔ Overrun w := by
  constructor
  · rintro ⟨u, x, h, hx, hw⟩
    cases hw with
    | nil => cases h
    | plain hc hp hw =>
      rw [List.cons_append] at h
      obtain ⟨rfl, hrest⟩ := List.cons.inj h
      rw [hrest, hp rfl] at hcode
      cases hcode
    | code hc hw =>
      cases h
      exact ⟨_, x, rfl, hx, hw⟩
  · rintro ⟨u, x, rfl, hx, hw⟩
    exact ⟨37 :: a :: b :: u, x, rfl, hx, .code hcode hw⟩

/-- A code with one character behind the percent sign. -/
theorem overrun_last {x : UInt8} (hx : (scanHex (cText [x])).isSome) : Overrun [37, x] :=
  ⟨[], x, rfl, (scanHex_single x).mp hx, .nil _⟩

/-! ## Rounds -/

variable {s : Str} {old w : Bytes} (pre rest : Bytes)

/-- One more character, or none when it is the NUL. -/
theorem strPutc_any {c : UInt8} (h : Holds s old) (hz : s.size ≤ stringMax) (hmax : old.length + 1 < stringMax) :
    ∃ t, (strPutc true c).run s = .ok () t ∧ Holds t (old ++ cText [c]) ∧ t.size ≤ stringMax := by
  have hmem : cString [c, 0] = some (cText [c]) := cString_cText [c] []
  have hlen : (cText [c]).length ≤ 1 := (List.takeWhile_prefix (l := [c]) (· != 0)).length_le
  obtain ⟨t, hrun, ht, hsize⟩ := (strCat_holds h hmem).1 (by omega)
  exact ⟨t, hrun, ht, hsize hz⟩

theorem unescapeRound_stop (hw : w.head?.getD 0 = 0) :
    (unescapeRound (pre ++ w ++ 0 :: rest) pre.length).run s = .ok (.inr ()) s := by
  have hget : (pre ++ w ++ 0 :: rest)[pre.length]? = some 0 := by
    cases w with
    | nil => simp
    | cons c w =>
      have hc : c = 0 := hw
      simp [hc]
  rw [unescapeRound, hget, deref_some, run_bind_ret, if_pos rfl]
  rfl

/-- The text that `sscanf(3)` gets. -/
theorem cString_behind (c : UInt8) (w : Bytes) (hc : c ≠ 0) :
    cString ((pre ++ c :: w ++ 0 :: rest).drop pre.length) = some (c :: cText w) := by
  have hcons : cText (c :: w) = c :: cText w := by
    rw [cText, List.takeWhile_cons_of_pos (by simpa using hc)]
    rfl
  rw [List.append_assoc, List.drop_left' rfl, ← hcons]
  exact cString_cText (c :: w) rest

theorem unescapeRound_plain {c : UInt8} (hc : c ≠ 0) (hp : c = 37 → scanHex (cText w) = none)
    (h : Holds s old) (hz : s.size ≤ stringMax) (hmax : old.length + 1 < stringMax) :
    ∃ t, (unescapeRound (pre ++ c :: w ++ 0 :: rest) pre.length).run s = .ok (.inl (pre.length + 1)) t ∧
      Holds t (old ++ [c]) ∧ t.size ≤ stringMax := by
  obtain ⟨t, hput, ht, htz⟩ := strPutc_holds h hz hc hmax
  refine ⟨t, ?_, ht, htz⟩
  have hget : (pre ++ c :: w ++ 0 :: rest)[pre.length]? = some c := by simp
  simp only [unescapeRound]
  rw [hget, deref_some, run_bind_ret, if_neg hc]
  by_cases hpercent : c = 37
  · rw [if_pos hpercent, cString_behind pre rest c w hc, deref_some, run_bind_ret, hpercent]
    simp only [sscanfCode, hp hpercent]
    rw [hpercent] at hput
    rw [run_bind_ok hput]
    rfl
  · rw [if_neg hpercent, run_bind_ok hput]
    rfl

theorem unescapeRound_code {code : Int} (hcode : scanHex (cText w) = some code) (h : Holds s old)
    (hz : s.size ≤ stringMax) (hmax : old.length + 1 < stringMax) :
    ∃ t, (unescapeRound (pre ++ 37 :: w ++ 0 :: rest) pre.length).run s = .ok (.inl (pre.length + 3)) t ∧
      Holds t (old ++ cText [toChar code]) ∧ t.size ≤ stringMax := by
  obtain ⟨t, hput, ht, htz⟩ := strPutc_any (c := toChar code) h hz hmax
  refine ⟨t, ?_, ht, htz⟩
  have hget : (pre ++ 37 :: w ++ 0 :: rest)[pre.length]? = some 37 := by simp
  simp only [unescapeRound]
  rw [hget, deref_some, run_bind_ret, if_neg (by decide), if_pos rfl,
    cString_behind pre rest 37 w (by decide), deref_some, run_bind_ret]
  simp only [sscanfCode, hcode]
  rw [run_bind_ok hput]
  rfl

/-- A character that has been written makes the text no more than one longer. -/
theorem length_append_cText (old : Bytes) (c : UInt8) : (old ++ cText [c]).length ≤ old.length + 1 := by
  have hlen : (cText [c]).length ≤ 1 := (List.takeWhile_prefix (l := [c]) (· != 0)).length_le
  rw [List.length_append]
  omega

/-- The rest of the text `w` is read: the loop ends, and stays in the text unless it oversteps. -/
def ReadsRest (mem : Bytes) (stop : Nat) (w : Bytes) (fuel i : Nat) (s : Str) : Prop :=
  (¬ Overrun w →
    (∃ t text, (loop (unescapeRound mem) fuel i).run s = .ok () t ∧ Holds t text ∧ t.size ≤ stringMax) ∧
    ∀ j ∈ unescapeReads mem fuel i s, j ≤ stop) ∧
  (Overrun w → stop + 1 ∈ unescapeReads mem fuel i s)

/-- One round, and the rest of it. -/
theorem ReadsRest.round {mem w w' : Bytes} {stop fuel i j : Nat} {s t : Str} (hi : i ≤ stop)
    (hround : (unescapeRound mem i).run s = .ok (.inl j) t) (hover : Overrun w ↔ Overrun w')
    (h : ReadsRest mem stop w' fuel j t) : ReadsRest mem stop w (fuel + 1) i s := by
  have hreads : unescapeReads mem (fuel + 1) i s = i :: unescapeReads mem fuel j t := by
    rw [unescapeReads, hround]
  constructor
  · intro hno
    obtain ⟨⟨u, text, hloop, hu⟩, hall⟩ := h.1 fun ho => hno (hover.mpr ho)
    refine ⟨⟨u, text, (run_loop_inl hround).trans hloop, hu⟩, ?_⟩
    intro k hk
    rw [hreads] at hk
    rcases List.mem_cons.mp hk with rfl | hk
    · exact hi
    · exact hall k hk
  · intro ho
    rw [hreads]
    exact List.mem_cons_of_mem _ (h.2 (hover.mp ho))

/-- The run of the loop from a place on. -/
theorem loop_unescape_reads (n : Nat) : ∀ {s old w} (pre rest : Bytes), w.length = n → Holds s old →
    s.size ≤ stringMax → old.length ≤ pre.length → (pre ++ w).length < stringMax → ∀ fuel, w.length + 1 < fuel →
    ReadsRest (pre ++ w ++ 0 :: rest) (pre ++ w).length w fuel pre.length s := by
  induction n using Nat.strong_induction_on with
  | h n ih =>
    intro s old w pre rest hn h hz hold hmax fuel hf
    obtain ⟨fuel, rfl⟩ : ∃ k, fuel = k + 1 := ⟨fuel - 1, by omega⟩
    have hi : pre.length ≤ (pre ++ w).length := by rw [List.length_append]; omega
    by_cases hw : w.head?.getD 0 = 0
    · -- The loop ends at a NUL.
      have hround := unescapeRound_stop (s := s) pre rest hw
      have hno : ¬ Overrun w := by
        cases w with
        | nil => exact overrun_nil
        | cons c w =>
          have hc : c = 0 := hw
          rw [hc]
          exact overrun_nul w
      refine ⟨fun _ => ⟨⟨s, old, run_loop_inr hround, h, hz⟩, ?_⟩, fun ho => absurd ho hno⟩
      intro j hj
      rw [unescapeReads, hround] at hj
      rw [List.mem_singleton.mp hj]
      exact hi
    obtain ⟨c, w, rfl⟩ : ∃ c u, w = c :: u := by
      cases w with
      | nil => exact absurd rfl hw
      | cons c w => exact ⟨c, w, rfl⟩
    have hc : c ≠ 0 := hw
    have hlen : (pre ++ c :: w).length = pre.length + w.length + 1 := by
      rw [List.length_append, List.length_cons]
      omega
    rw [List.length_cons] at hf hn
    by_cases hcode : c = 37 ∧ (scanHex (cText w)).isSome
    · obtain ⟨rfl, hcode⟩ := hcode
      obtain ⟨code, hscan⟩ := Option.isSome_iff_exists.mp hcode
      obtain ⟨t, hround, ht, htz⟩ := unescapeRound_code pre rest hscan h hz (by omega)
      have hold' := length_append_cText old (toChar code)
      match w with
      | [] => cases hcode
      | [x] =>
        -- The only digit is stepped over together with the NUL behind it.
        have hover := overrun_last hcode
        refine ⟨fun hno => absurd hover hno, fun _ => ?_⟩
        obtain ⟨fuel, rfl⟩ : ∃ k, fuel = k + 1 := ⟨fuel - 1, by omega⟩
        rw [unescapeReads, hround, hlen]
        apply List.mem_cons_of_mem _
        dsimp only
        rw [unescapeReads]
        exact List.mem_cons_self
      | a :: b :: w =>
        have hcat : pre ++ 37 :: a :: b :: w = pre ++ [37, a, b] ++ w := by simp
        have hplace : (pre ++ [37, a, b]).length = pre.length + 3 := by simp
        have hrest := ih w.length (by rw [← hn, List.length_cons, List.length_cons]; omega)
          (pre ++ [37, a, b]) rest rfl ht htz (by rw [hplace]; omega) (by rw [← hcat]; exact hmax)
          fuel (by rw [List.length_cons, List.length_cons] at hf; omega)
        rw [← hcat, hplace] at hrest
        exact ReadsRest.round hi hround (overrun_code hcode) hrest
    · have hp : c = 37 → scanHex (cText w) = none := by
        intro hc37
        rw [← Option.not_isSome_iff_eq_none]
        exact fun hs => hcode ⟨hc37, hs⟩
      obtain ⟨t, hround, ht, htz⟩ := unescapeRound_plain pre rest hc hp h hz (by omega)
      have hplace : (pre ++ [c]).length = pre.length + 1 := by simp
      have hrest := ih w.length (by omega) (pre ++ [c]) rest rfl ht htz
        (by rw [hplace, List.length_append, List.length_singleton]; omega)
        (by rw [← List.append_cons]; exact hmax) fuel (by omega)
      rw [← List.append_cons, hplace] at hrest
      exact ReadsRest.round hi hround (overrun_plain hc hp) hrest

/-- `str_unescape` returns and does not read its source behind the NUL at its end exactly when the
loop does not come to a percent sign with one hexadecimal digit at the end of the text. -/
theorem unescape_inside_iff {src dest : Str} {text old : Bytes} (hs : Holds src text) (hd : Holds dest old)
    (hmax : text.length < stringMax) :
    ((∃ t, (strUnescape src).run dest = .ok () t) ∧ ∀ i ∈ readsOf src, i ≤ src.len) ↔ ¬ Overrun text := by
  have hnew : (strNew true true : Act Str Str).run dest = .ok newString dest := rfl
  have hbuf : Holds newString [] := ⟨rfl, _, rfl, rfl⟩
  have hbz : newString.size ≤ stringMax := by decide
  obtain ⟨rest, hval, -⟩ := hs.value
  rw [strUnescape, run_bind_ok hnew, readsOf, hval]
  by_cases hlen : src.len = 0
  · obtain rfl : text = [] := List.length_eq_zero_iff.mp (hs.len.symm.trans hlen)
    rw [if_pos hlen, if_pos hlen]
    exact iff_of_true ⟨⟨dest, rfl⟩, by simp⟩ overrun_nil
  · rw [if_neg hlen, if_neg hlen, Option.map_some, Option.getD_some, deref_some, run_bind_ret, hs.len]
    obtain ⟨hinside, hover⟩ := loop_unescape_reads text.length [] rest rfl hbuf hbz (Nat.le_refl _)
      (by simpa using hmax) ((text ++ 0 :: rest).length + 1) (by simp)
    rw [List.nil_append, List.length_nil] at hinside hover
    constructor
    · rintro ⟨-, hall⟩ ho
      have hread := hall _ (hover ho)
      omega
    · intro hno
      obtain ⟨⟨b, text', hloop, hb, hbz'⟩, hall⟩ := hinside hno
      obtain ⟨t, hmove, -⟩ := moveLocal_holds hd hb hbz'
      refine ⟨⟨t, ?_⟩, hall⟩
      rw [run_bind_ok (run_onLocal_ok hloop dest)]
      exact hmove

/-- The text `%zz%41a`, and the text `a%41%7`, at whose end there is one digit only. -/
theorem unescape_inside_iff_codes :
    ((∃ t, (strUnescape (ofText [37, 122, 122, 37, 52, 49, 97]).1).run (ofText []).1 = .ok () t) ∧
      ∀ i ∈ readsOf (ofText [37, 122, 122, 37, 52, 49, 97]).1, i ≤ 7) ∧
      ¬ ((∃ t, (strUnescape (ofText [97, 37, 52, 49, 37, 55]).1).run (ofText []).1 = .ok () t) ∧
        ∀ i ∈ readsOf (ofText [97, 37, 52, 49, 37, 55]).1, i ≤ 6) := by
  have hinside : ¬ Overrun [37, 122, 122, 37, 52, 49, 97] := by
    rw [overrun_plain (by decide) (fun _ => by decide), overrun_plain (by decide) (by decide),
      overrun_plain (by decide) (by decide), overrun_code (by decide), overrun_plain (by decide) (by decide)]
    exact overrun_nil
  have hover : Overrun [97, 37, 52, 49, 37, 55] := by
    rw [overrun_plain (by decide) (by decide), overrun_code (by decide)]
    exact overrun_last (by decide)
  constructor
  · exact (unescape_inside_iff (ofText [37, 122, 122, 37, 52, 49, 97]).2 (ofText []).2 (by decide)).mpr hinside
  · intro h
    exact (unescape_inside_iff (ofText [97, 37, 52, 49, 37, 55]).2 (ofText []).2 (by decide)).mp h hover

/-- The text `%a` of length two is read at place three. -/
theorem unescape_oversteps : readsOf (ofText [37, 97]).1 = [0, 3] ∧ (ofText [37, 97]).1.len = 2 ∧
    (strUnescape (ofText [37, 97]).1).run (ofText []).1 = .halt .fault := by
  refine ⟨by decide, rfl, ?_⟩
  exact Outcome.eq_of_stopped (by decide)

end NcString
