import NaturalC.NcHashDecode
import NaturalC.NcHashMap

/-!
# Tables from arguments

`hash_from_char` takes keys and values from its argument list. The cursor is advanced
once too often between the first key and the loop, so the first value is skipped, and
from then on keys and values have changed places.
-/
namespace NcHash

open Throwing Throwing.Act NcString NcList Linked

/-- The loop of `hash_from_char`, with the key of the round in front of the arguments that are
left. The null pointer ends the arguments. -/
def setPairs (str : Str) : List Bytes → Act Store Unit
  | [] => pure ()
  | [_] => throwing
  | key :: val :: args => do
    let (_, str) ← onLocal (strAlias val) str
    hashSet key str
    setPairs str args

def hashFromChar (args : List Bytes) : Act Store Unit := do
  hashTruncate
  match args with
  | [] => throwing
  | [_] => throwing
  | key :: _ :: args => setPairs emptyString (key :: args)

/-- The memory that the arguments point to. -/
def argMemory (args : List CText) : List Bytes := args.map (fun a => charArray a.1)

/-- The map that results from setting the pairs in order. -/
def setting (ps : List (Bytes × Bytes)) : Bytes → Option Bytes :=
  ps.foldl (fun m p => Function.update m p.1 (some p.2)) (fun _ => none)

/-- The arguments one behind the other. -/
def pairArgs (ps : List (CText × CText)) : List CText := ps.flatMap fun p => [p.1, p.2]

/-- The texts of the pairs. -/
def pairTexts (ps : List (CText × CText)) : List (Bytes × Bytes) := ps.map fun p => (p.1.1, p.2.1)

/-- One or more pairs, with no value equal to a key. -/
def ApartPairs (args : List CText) (ps : List (CText × CText)) : Prop :=
  args = pairArgs ps ∧ ps ≠ [] ∧ ∀ p ∈ ps, ∀ q ∈ ps, p.2 ≠ q.1

/-- What `hash_from_char` is for: pairs with no value equal to a key are set in order on a table
that is empty to begin with, and an odd number of arguments is refused. -/
def MakesTable (s : Store) (args : List CText) : Prop :=
  (∀ ps, ApartPairs args ps → ∃ s' d, (hashFromChar (argMemory args)).run s = .ok () s' ∧
    Refines s' d ∧ d.lookup = setting (pairTexts ps)) ∧
  (args.length % 2 = 1 → ∃ s', (hashFromChar (argMemory args)).run s = .thrown s')

variable {out : Addr} {s : Store} {c : Addr → Option Chain} {B : UInt8 → List Bytes}

/-- An odd number of arguments never gets through the loop. -/
theorem setPairs_odd (args : List Bytes) (hodd : args.length % 2 = 1) (str : Str) (s s' : Store) :
    (setPairs str args).run s ≠ .ok () s' := by
  induction args using List.twoStepInduction generalizing str s with
  | nil => cases hodd
  | singleton key =>
    intro hrun
    cases hrun
  | cons_cons key val args ih _ =>
    intro hrun
    obtain ⟨⟨_, str'⟩, t, _, hrest⟩ := exists_of_run_bind hrun
    obtain ⟨_, u, _, hrest⟩ := exists_of_run_bind hrest
    refine ih ?_ str' u hrest
    rw [List.length_cons, List.length_cons] at hodd
    omega

/-- A text that no string object can hold. -/
def TooLong (p : CText × CText) : Prop := stringMax ≤ p.1.1.length ∨ stringMax ≤ p.2.1.length

/-- One of the pairs is too long, and all pairs in front of it can be set. -/
def ReachesLong (B : UInt8 → List Bytes) (ps : List (CText × CText)) : Prop :=
  ∃ us p vs, ps = us ++ p :: vs ∧ TooLong p ∧ (setAll B (pairTexts us)).isSome

theorem reachesLong_of_long {p : CText × CText} (hp : TooLong p) (ps : List (CText × CText)) :
    ReachesLong B (p :: ps) := ⟨[], p, ps, rfl, hp, rfl⟩

theorem reachesLong_cons {p : CText × CText} (hp : ¬ TooLong p) (ps : List (CText × CText)) :
    ReachesLong B (p :: ps) ↔ ∃ ts, setBucket p.1.1 p.2.1 (B (xorBytes p.1.1)) = some ts ∧
      ReachesLong (Function.update B (xorBytes p.1.1) ts) ps := by
  constructor
  · rintro ⟨us, q, vs, hps, hq, hset⟩
    cases us with
    | nil =>
      cases hps
      exact absurd hq hp
    | cons u us =>
      cases hps
      obtain ⟨B', hB'⟩ := Option.isSome_iff_exists.mp hset
      obtain ⟨ts, hts, hrest⟩ := Option.bind_eq_some_iff.mp hB'
      exact ⟨ts, hts, us, q, vs, rfl, hq, by rw [pairTexts, hrest]; rfl⟩
  · rintro ⟨ts, hts, us, q, vs, rfl, hq, hset⟩
    refine ⟨p :: us, q, vs, rfl, hq, ?_⟩
    rw [pairTexts, List.map_cons, setAll, hts]
    exact hset

theorem pairArgs_cons (p : CText × CText) (ps : List (CText × CText)) :
    argMemory (pairArgs (p :: ps)) = charArray p.1.1 :: charArray p.2.1 :: argMemory (pairArgs ps) := rfl

theorem strAlias_array {text : CText} (hfit : text.1.length < stringMax) (str : Str) :
    ∃ u, (strAlias (charArray text.1)).run str = .ok () u ∧ Holds u text.1 := by
  obtain ⟨u, halias, hlen, hsize, hval⟩ := (strAlias_holds str (cString_charArray text.1 text.2)).1 hfit
  exact ⟨u, halias, hlen, [], hval, hsize⟩

/-- Every text in the buckets fits a string object. -/
def Fitting (B : UInt8 → List Bytes) : Prop := ∀ i, ∀ t ∈ B i, t.length < stringMax

theorem mem_setBucket {k v : Bytes} {bs ts : List Bytes} (h : setBucket k v bs = some ts) :
    ∀ t ∈ ts, t ∈ bs ∨ t = k ∨ t = v := by
  induction bs generalizing ts with
  | nil =>
    cases h
    intro t ht
    simpa using ht
  | cons b bs ih =>
    obtain ⟨us, hus, rfl⟩ := Option.map_eq_some_iff.mp h
    intro t ht
    rcases List.mem_cons.mp ht with rfl | ht
    · exact .inl (List.mem_cons_self)
    · split at hus
      · cases bs with
        | nil => cases hus
        | cons b' bs =>
          cases hus
          rcases List.mem_cons.mp ht with rfl | ht
          · exact .inr (.inr rfl)
          · exact .inl (by simp [ht])
      · rcases ih hus t ht with hin | he
        · exact .inl (List.mem_cons_of_mem _ hin)
        · exact .inr he

theorem Fitting.set (hB : Fitting B) {p : CText × CText} (hp : ¬ TooLong p) {ts : List Bytes}
    (hts : setBucket p.1.1 p.2.1 (B (xorBytes p.1.1)) = some ts) :
    Fitting (Function.update B (xorBytes p.1.1) ts) := by
  obtain ⟨hk, hv⟩ := not_or.mp hp
  intro i t ht
  by_cases hi : i = xorBytes p.1.1
  · subst hi
    rw [Function.update_self] at ht
    rcases mem_setBucket hts t ht with hin | rfl | rfl
    · exact hB _ t hin
    · exact Nat.lt_of_not_le hk
    · exact Nat.lt_of_not_le hv
  · rw [Function.update_of_ne hi] at ht
    exact hB i t ht

/-- A round with a text that is too long fails, be it the value or the key. -/
theorem setPairs_long (T : Tab out s c B) (hB : Fitting B) {p : CText × CText} (hp : TooLong p)
    (str : Str) (ps : List (CText × CText)) :
    ∃ s', (setPairs str (argMemory (pairArgs (p :: ps)))).run s = .thrown s' := by
  rw [pairArgs_cons, setPairs]
  by_cases hv : stringMax ≤ p.2.1.length
  · obtain ⟨u, halias⟩ := (strAlias_holds str (cString_charArray p.2.1 p.2.2)).2 hv
    exact ⟨s, run_bind_thrown (run_onLocal_thrown halias s)⟩
  · have hk : stringMax ≤ p.1.1.length := hp.resolve_right hv
    obtain ⟨u, halias, hu⟩ := strAlias_array (Nat.lt_of_not_le hv) str
    -- No text of the table is that long, so the key is not found and has to be stored.
    have habs : ∀ t ∈ B (xorBytes p.1.1), cText t ≠ p.1.1 := by
      intro t ht he
      have hle : (cText t).length ≤ t.length := (List.takeWhile_prefix _).length_le
      have := hB _ t ht
      rw [he] at hle
      omega
    obtain ⟨s', c', hset, -⟩ := (hashSet_absent T (cString_charArray p.1.1 p.1.2) habs hu).2 hk
    refine ⟨s', ?_⟩
    rw [run_bind_ok (run_onLocal_ok halias s)]
    exact run_bind_thrown hset

/-- The loop on whole pairs fails exactly at a text that is too long. -/
theorem setPairs_run (ps : List (CText × CText)) (T : Tab out s c B) (hB : Fitting B) (str : Str) :
    (∃ s', (setPairs str (argMemory (pairArgs ps))).run s = .thrown s') ↔ ReachesLong B ps := by
  induction ps generalizing s c B str with
  | nil =>
    refine ⟨?_, ?_⟩
    · rintro ⟨s', hrun⟩
      cases hrun
    · rintro ⟨us, p, vs, hps, -⟩
      simp at hps
  | cons p ps ih =>
    by_cases hp : TooLong p
    · exact ⟨fun _ => reachesLong_of_long hp ps, fun _ => setPairs_long T hB hp str ps⟩
    · obtain ⟨hk, hv⟩ := not_or.mp hp
      obtain ⟨u, halias, hu⟩ := strAlias_array (Nat.lt_of_not_le hv) str
      have hset := hashSet_tab T (cString_charArray p.1.1 p.1.2) (Nat.lt_of_not_le hk) hu
      rw [reachesLong_cons hp, pairArgs_cons, setPairs, run_bind_ok (run_onLocal_ok halias s)]
      cases hts : setBucket p.1.1 p.2.1 (B (xorBytes p.1.1)) with
      | none =>
        rw [hts] at hset
        refine ⟨?_, ?_⟩
        · rintro ⟨s', hrun⟩
          rw [run_bind_halt hset] at hrun
          cases hrun
        · rintro ⟨ts, he, -⟩
          cases he
      | some ts =>
        rw [hts] at hset
        obtain ⟨s', c', hrun, T', -⟩ := hset
        rw [run_bind_ok hrun, ih T' (hB.set hp hts) u]
        refine ⟨fun hreach => ⟨ts, rfl, hreach⟩, ?_⟩
        rintro ⟨us, he, hreach⟩
        cases he
        exact hreach

theorem length_pairArgs (ps : List (CText × CText)) : (pairArgs ps).length = 2 * ps.length := by
  induction ps with
  | nil => rfl
  | cons p ps ih =>
    rw [pairArgs, List.flatMap_cons, List.length_append, ← pairArgs, ih, List.length_cons]
    simp only [List.length_cons, List.length_nil]
    omega

theorem exists_pairArgs (args : List CText) (heven : args.length % 2 = 0) : ∃ ps, args = pairArgs ps := by
  induction args using List.twoStepInduction with
  | nil => exact ⟨[], rfl⟩
  | singleton a => cases heven
  | cons_cons a b args ih _ =>
    rw [List.length_cons, List.length_cons] at heven
    obtain ⟨ps, rfl⟩ := ih (by omega)
    exact ⟨(a, b) :: ps, rfl⟩

/-- The table is emptied, and the loop starts with the first argument and the third. -/
theorem hashFromChar_run (T : Tab out s c B) (key val : CText) (args : List CText) :
    ∃ t c', Tab out t c' (fun _ => []) ∧ (hashFromChar (argMemory (key :: val :: args))).run s =
      (setPairs emptyString (argMemory (key :: args))).run t := by
  obtain ⟨t, c', htrunc, T', -, -⟩ := hashTruncate_tab T
  exact ⟨t, c', T', run_bind_ok htrunc⟩

theorem hashFromChar_one (T : Tab out s c B) (key : CText) :
    ∃ t, (hashFromChar (argMemory [key])).run s = .thrown t := by
  obtain ⟨t, c', htrunc, -⟩ := hashTruncate_tab T
  exact ⟨t, run_bind_ok htrunc⟩

theorem hashFromChar_pairs (T : Tab out s c B) {ps : List (CText × CText)} (hne : ps ≠ []) (s' : Store) :
    (hashFromChar (argMemory (pairArgs ps))).run s ≠ .ok () s' := by
  obtain ⟨p, ps, rfl⟩ := List.exists_cons_of_ne_nil hne
  obtain ⟨t, c', -, hrun⟩ := hashFromChar_run T p.1 p.2 (pairArgs ps)
  change (hashFromChar (argMemory (p.1 :: p.2 :: pairArgs ps))).run s ≠ _
  rw [hrun]
  refine setPairs_odd _ ?_ _ _ _
  rw [argMemory, List.length_map, List.length_cons, length_pairArgs]
  omega

/-- There is one argument, or the pairs without the second argument reach a text that no string
object can hold. -/
def Refused (args : List CText) : Prop :=
  args.length = 1 ∨ ∃ key val rest ps, args = key :: val :: rest ∧ key :: rest = pairArgs ps ∧
    ReachesLong (fun _ => []) ps

/-- On no sequence of pairs does `hash_from_char` do what it is for; what is right is that it
refuses a single argument, and longer odd sequences only for the length of their texts. -/
theorem hash_from_char_iff {P : UInt8 → List (Bytes × Bytes)} (T : PairTab s c P) (args : List CText) :
    MakesTable s args ↔ (∀ ps, ¬ ApartPairs args ps) ∧ (args.length % 2 = 1 → Refused args) := by
  constructor
  · rintro ⟨heven, hodd⟩
    constructor
    · intro ps hps
      obtain ⟨s', d, hrun, -⟩ := heven ps hps
      obtain ⟨rfl, hne, -⟩ := hps
      exact hashFromChar_pairs T hne s' hrun
    · intro hlen
      obtain ⟨s', hthrown⟩ := hodd hlen
      match args, hlen, hthrown with
      | [key], _, _ => exact .inl rfl
      | key :: val :: rest, hlen, hthrown =>
        rw [List.length_cons, List.length_cons] at hlen
        obtain ⟨ps, hps⟩ := exists_pairArgs (key :: rest) (by rw [List.length_cons]; omega)
        obtain ⟨t, c', T', hrun⟩ := hashFromChar_run T key val rest
        rw [hrun, hps] at hthrown
        have hfit : Fitting fun _ => [] := fun _ _ ht => absurd ht List.not_mem_nil
        exact .inr ⟨key, val, rest, ps, rfl, hps, (setPairs_run ps T' hfit emptyString).mp ⟨s', hthrown⟩⟩
  · rintro ⟨hnone, hrefused⟩
    refine ⟨fun ps hps => absurd hps (hnone ps), fun hlen => ?_⟩
    rcases hrefused hlen with hone | ⟨key, val, rest, ps, rfl, hps, hreach⟩
    · obtain ⟨key, rfl⟩ := List.length_eq_one_iff.mp hone
      exact hashFromChar_one T key
    · obtain ⟨t, c', T', hrun⟩ := hashFromChar_run T key val rest
      have hfit : Fitting fun _ => [] := fun _ _ ht => absurd ht List.not_mem_nil
      rw [hrun, hps]
      exact (setPairs_run ps T' hfit emptyString).mpr hreach

/-- One pair is refused, and three arguments make a table. -/
theorem hash_from_char_skips_value :
    ApartPairs [ab, oneTwo] [(ab, oneTwo)] ∧
      ((hashFromChar (argMemory [ab, oneTwo])).run start).value = none ∧
      ((hashFromChar (argMemory [ab, oneTwo, ba])).run start).value = some () ∧
      ¬ MakesTable start [ab, oneTwo] ∧ ¬ MakesTable start [ab, oneTwo, ba] := by
  have happart : ApartPairs [ab, oneTwo] [(ab, oneTwo)] := by
    refine ⟨rfl, by simp, ?_⟩
    simp only [List.mem_singleton, forall_eq]
    decide
  have hpair : ((hashFromChar (argMemory [ab, oneTwo])).run start).value = none := by decide +kernel
  have hthree : ((hashFromChar (argMemory [ab, oneTwo, ba])).run start).value = some () := by
    decide +kernel
  refine ⟨happart, hpair, hthree, fun hmakes => ?_, fun hmakes => ?_⟩
  · obtain ⟨s', d, hrun, -⟩ := hmakes.1 _ happart
    rw [hrun] at hpair
    cases hpair
  · obtain ⟨s', hrun⟩ := hmakes.2 rfl
    rw [hrun] at hthree
    cases hthree

/-- On a table with a pair, a single argument is refused, and two pairs are not set as they should be. -/
theorem hash_from_char_iff_ab :
    ∃ s c P, PairTab s c P ∧ P (xorBytes ab.1) = [(ab.1, [120])] ∧ MakesTable s [ab] ∧
      ¬ MakesTable s [ab, oneTwo, ba, oneTwo] := by
  obtain ⟨s, c, -, T⟩ := run_set_ab (ofText [120])
  refine ⟨s, c, _, T, Function.update_self _ _ _, ?_, ?_⟩
  · refine (hash_from_char_iff T [ab]).mpr ⟨?_, fun _ => .inl rfl⟩
    rintro ps ⟨hps, -⟩
    have hlen := congrArg List.length hps
    rw [length_pairArgs, List.length_singleton] at hlen
    omega
  · intro hmakes
    have hnone := ((hash_from_char_iff T [ab, oneTwo, ba, oneTwo]).mp hmakes).1
    refine hnone [(ab, oneTwo), (ba, oneTwo)] ⟨rfl, by simp, ?_⟩
    simp only [List.mem_cons, List.not_mem_nil, or_false, forall_eq_or_imp, forall_eq]
    decide

end NcHash
