import Mathlib.Data.List.Basic

/-!
# Structured code and jumps

Blocks of statements, branches and loops over any kind of statement, which may leave the
block they stand in. A program is a row of blocks with labels between them, and a block that
is left goes on behind a label or returns a value.
-/
namespace Flow

/-- How a piece of code ends. -/
inductive Out (ε : Type) where
  | normal
  | brk
  | cont
  | exit (e : ε)
  deriving DecidableEq, Repr

/-- Statements `α` one after the other, and branches and loops with heads `β`. -/
inductive Block (α β : Type) where
  | nil
  | leaf (a : α) (k : Block α β)
  | branch (b : β) (t e k : Block α β)
  /-- The flag is set until the loop has been entered. -/
  | loop (first : Bool) (b : β) (t k : Block α β)
  deriving DecidableEq, Repr

/-- What statements and heads do to a state. -/
structure Sem (α β S ε : Type) where
  leaf : α → S → Out ε × S
  test : β → S → Bool × S
  /-- A loop before its first round. -/
  enter : β → S → Bool × S
  /-- A loop between two rounds. -/
  next : β → S → Bool × S

variable {α β S ε : Type}

def Sem.round (m : Sem α β S ε) : Bool → β → S → Bool × S
  | true => m.enter
  | false => m.next

/-- Go on if the code before has ended normally. -/
def andThen (r : Option (Out ε × S)) (k : S → Option (Out ε × S)) : Option (Out ε × S) :=
  match r with
  | some (.normal, s) => k s
  | r => r

/-- Go on behind the body of a loop. -/
def afterRound (r : Option (Out ε × S)) (again done : S → Option (Out ε × S)) : Option (Out ε × S) :=
  match r with
  | some (.normal, s) => again s
  | some (.cont, s) => again s
  | some (.brk, s) => done s
  | r => r

/-- A block with a limit on the steps. -/
def run (m : Sem α β S ε) : Nat → Block α β → S → Option (Out ε × S)
  | 0, _, _ => none
  | _ + 1, .nil, s => some (.normal, s)
  | n + 1, .leaf a k, s => andThen (some (m.leaf a s)) (run m n k)
  | n + 1, .branch b t e k, s =>
    andThen (run m n (if (m.test b s).1 then t else e) (m.test b s).2) (run m n k)
  | n + 1, .loop first b t k, s =>
    if (m.round first b s).1 then
      afterRound (run m n t (m.round first b s).2) (run m n (.loop false b t k)) (run m n k)
    else run m n k (m.round first b s).2

/-- The block ends like this, whatever number of steps it takes. -/
def Runs (m : Sem α β S ε) (b : Block α β) (s : S) (o : Out ε) (s' : S) : Prop :=
  ∃ n, run m n b s = some (o, s')

/-! ## More steps -/

variable {m : Sem α β S ε} {b k : Block α β} {s s' s₁ : S} {o : Out ε} {r r' : Option (Out ε × S)}

theorem andThen_mono {k k' : S → Option (Out ε × S)} {x : Out ε × S} (hr : ∀ y, r = some y → r' = some y)
    (hk : ∀ s y, k s = some y → k' s = some y) (h : andThen r k = some x) : andThen r' k' = some x := by
  cases hrx : r with
  | none =>
    rw [hrx] at h
    cases h
  | some y =>
    rw [hr y hrx]
    rw [hrx] at h
    obtain ⟨o, s⟩ := y
    cases o with
    | normal => exact hk s x h
    | brk => exact h
    | cont => exact h
    | exit e => exact h

theorem afterRound_mono {k k' d d' : S → Option (Out ε × S)} {x : Out ε × S}
    (hr : ∀ y, r = some y → r' = some y) (hk : ∀ s y, k s = some y → k' s = some y)
    (hd : ∀ s y, d s = some y → d' s = some y) (h : afterRound r k d = some x) :
    afterRound r' k' d' = some x := by
  cases hrx : r with
  | none =>
    rw [hrx] at h
    cases h
  | some y =>
    rw [hr y hrx]
    rw [hrx] at h
    obtain ⟨o, s⟩ := y
    cases o with
    | normal => exact hk s x h
    | brk => exact hd s x h
    | cont => exact hk s x h
    | exit e => exact h

theorem run_succ {n : Nat} {x : Out ε × S} (h : run m n b s = some x) : run m (n + 1) b s = some x := by
  induction n generalizing b s x with
  | zero => cases h
  | succ n ih =>
    cases b with
    | nil => exact h
    | leaf a k => exact andThen_mono (fun _ => id) (fun _ _ => ih) h
    | branch b t e k => exact andThen_mono (fun _ => ih) (fun _ _ => ih) h
    | loop first b t k =>
      rw [run] at h ⊢
      split_ifs at h ⊢ with hgo
      · exact afterRound_mono (fun _ => ih) (fun _ _ => ih) (fun _ _ => ih) h
      · exact ih h

theorem run_le {n n' : Nat} {x : Out ε × S} (hn : n ≤ n') (h : run m n b s = some x) :
    run m n' b s = some x := by
  induction hn with
  | refl => exact h
  | step _ ih => exact run_succ ih

theorem Runs.unique {o' : Out ε} (h : Runs m b s o s₁) (h' : Runs m b s o' s') : o = o' ∧ s₁ = s' := by
  obtain ⟨n, hn⟩ := h
  obtain ⟨n', hn'⟩ := h'
  have hsame := (run_le (Nat.le_max_left n n') hn).symm.trans (run_le (Nat.le_max_right n n') hn')
  simpa using hsame

theorem runs_nil : Runs m .nil s o s' ↔ o = .normal ∧ s' = s := by
  constructor
  · rintro ⟨n, hn⟩
    cases n with
    | zero => cases hn
    | succ n =>
      cases hn
      exact ⟨rfl, rfl⟩
  · rintro ⟨rfl, rfl⟩
    exact ⟨1, rfl⟩

theorem runs_single {a : α} : Runs m (.leaf a .nil) s o s' ↔ m.leaf a s = (o, s') := by
  have hrun : run m 2 (.leaf a .nil) s = some (m.leaf a s) := by
    rw [run]
    obtain ⟨o, t⟩ := m.leaf a s
    cases o <;> rfl
  constructor
  · intro h
    obtain ⟨ho, hs⟩ := Runs.unique ⟨2, hrun⟩ h
    exact Prod.ext ho hs
  · intro h
    exact ⟨2, by rw [hrun, h]⟩

/-! ## Translations -/

variable {α' β' S' ε' : Type} {m' : Sem α' β' S' ε'}

def Block.map (f : α → α') (g : β → β') : Block α β → Block α' β'
  | .nil => .nil
  | .leaf a k => .leaf (f a) (k.map f g)
  | .branch b t e k => .branch (g b) (t.map f g) (e.map f g) (k.map f g)
  | .loop first b t k => .loop first (g b) (t.map f g) (k.map f g)

def Block.leaves : Block α β → List α
  | .nil => []
  | .leaf a k => a :: k.leaves
  | .branch _ t e k => t.leaves ++ (e.leaves ++ k.leaves)
  | .loop _ _ t k => t.leaves ++ k.leaves

def Block.heads : Block α β → List β
  | .nil => []
  | .leaf _ k => k.heads
  | .branch b t e k => b :: (t.heads ++ (e.heads ++ k.heads))
  | .loop _ b t k => b :: (t.heads ++ k.heads)

/-- What stands for a block in a text, given what stands for its statements and around its blocks. -/
def Block.flat {γ : Type} (stmt : α → List γ) (opening mid tail : β → List γ) : Block α β → List γ
  | .nil => []
  | .leaf a k => stmt a ++ k.flat stmt opening mid tail
  | .branch b t e k =>
    opening b ++ (t.flat stmt opening mid tail ++ (mid b ++ (e.flat stmt opening mid tail ++ (tail b ++
      k.flat stmt opening mid tail))))
  | .loop _ b t k =>
    opening b ++ (t.flat stmt opening mid tail ++ (tail b ++ k.flat stmt opening mid tail))

/-- States and ends of one kind of code seen as those of another. -/
structure View (S ε S' ε' : Type) where
  state : S → S'
  exit : ε → S → ε' × S'

def View.out (v : View S ε S' ε') : Out ε × S → Out ε' × S'
  | (.normal, s) => (.normal, v.state s)
  | (.brk, s) => (.brk, v.state s)
  | (.cont, s) => (.cont, v.state s)
  | (.exit e, s) => (.exit (v.exit e s).1, (v.exit e s).2)

theorem map_andThen {v : View S ε S' ε'} {k : S → Option (Out ε × S)} {k' : S' → Option (Out ε' × S')}
    (hk : ∀ s, k' (v.state s) = (k s).map v.out) : andThen (r.map v.out) k' = (andThen r k).map v.out := by
  cases r with
  | none => rfl
  | some x =>
    obtain ⟨o, s⟩ := x
    cases o with
    | normal => exact hk s
    | brk => rfl
    | cont => rfl
    | exit e => rfl

theorem map_afterRound {v : View S ε S' ε'} {k d : S → Option (Out ε × S)} {k' d' : S' → Option (Out ε' × S')}
    (hk : ∀ s, k' (v.state s) = (k s).map v.out) (hd : ∀ s, d' (v.state s) = (d s).map v.out) :
    afterRound (r.map v.out) k' d' = (afterRound r k d).map v.out := by
  cases r with
  | none => rfl
  | some x =>
    obtain ⟨o, s⟩ := x
    cases o with
    | normal => exact hk s
    | brk => exact hd s
    | cont => exact hk s
    | exit e => rfl

/-- The statements and heads of a block do the same as their translations. -/
structure Matches (m : Sem α β S ε) (m' : Sem α' β' S' ε') (f : α → α') (g : β → β') (v : View S ε S' ε')
    (b : Block α β) : Prop where
  leaf : ∀ a ∈ b.leaves, ∀ s, m'.leaf (f a) (v.state s) = v.out (m.leaf a s)
  test : ∀ h ∈ b.heads, ∀ s, m'.test (g h) (v.state s) = ((m.test h s).1, v.state (m.test h s).2)
  round : ∀ h ∈ b.heads, ∀ first s,
    m'.round first (g h) (v.state s) = ((m.round first h s).1, v.state (m.round first h s).2)

variable {f : α → α'} {g : β → β'} {v : View S ε S' ε'}

theorem Matches.mono (h : Matches m m' f g v b) (hl : k.leaves ⊆ b.leaves) (hh : k.heads ⊆ b.heads) :
    Matches m m' f g v k where
  leaf a ha := h.leaf a (hl ha)
  test x hx := h.test x (hh hx)
  round x hx := h.round x (hh hx)

/-- A translation runs like the block it was made from. -/
theorem run_map (h : Matches m m' f g v b) (n : Nat) (s : S) :
    run m' n (b.map f g) (v.state s) = (run m n b s).map v.out := by
  induction n generalizing b s with
  | zero => rfl
  | succ n ih =>
    cases b with
    | nil => rfl
    | leaf a k =>
      have hk : Matches m m' f g v k := h.mono (List.subset_cons_self _ _) (fun _ => id)
      rw [Block.map, run, run, h.leaf a List.mem_cons_self]
      exact map_andThen (r := some (m.leaf a s)) (ih hk)
    | branch b t e k =>
      have ht : Matches m m' f g v t := h.mono (by simp [Block.leaves]) (by simp [Block.heads])
      have he : Matches m m' f g v e := h.mono (by simp [Block.leaves]) fun x hx => by simp [Block.heads, hx]
      have hk : Matches m m' f g v k := h.mono (by simp [Block.leaves]) fun x hx => by simp [Block.heads, hx]
      rw [Block.map, run, run, h.test b List.mem_cons_self, ← map_andThen (ih hk)]
      cases (m.test b s).1 with
      | true => exact congrArg (andThen · _) (ih ht _)
      | false => exact congrArg (andThen · _) (ih he _)
    | loop first b t k =>
      have ht : Matches m m' f g v t := h.mono (by simp [Block.leaves]) (by simp [Block.heads])
      have hk : Matches m m' f g v k := h.mono (by simp [Block.leaves]) (by simp [Block.heads])
      have hloop : Matches m m' f g v (.loop false b t k) := h.mono (fun _ => id) (fun _ => id)
      rw [Block.map, run, run, h.round b List.mem_cons_self]
      cases (m.round first b s).1 with
      | true =>
        rw [if_pos rfl, if_pos rfl, ih ht]
        exact map_afterRound (ih hloop) (ih hk)
      | false =>
        rw [if_neg Bool.false_ne_true, if_neg Bool.false_ne_true]
        exact ih hk _

theorem Runs.map (h : Matches m m' f g v b) (hr : Runs m b s o s') :
    Runs m' (b.map f g) (v.state s) (v.out (o, s')).1 (v.out (o, s')).2 := by
  obtain ⟨n, hn⟩ := hr
  exact ⟨n, by rw [run_map h, hn]; rfl⟩

/-- Every run of the translation comes from one of the block. -/
theorem Runs.of_map {o' : Out ε'} {t : S'} (h : Matches m m' f g v b)
    (hr : Runs m' (b.map f g) (v.state s) o' t) : ∃ o s', Runs m b s o s' ∧ v.out (o, s') = (o', t) := by
  obtain ⟨n, hn⟩ := hr
  rw [run_map h] at hn
  obtain ⟨⟨o, s'⟩, hrun, hout⟩ := Option.map_eq_some_iff.mp hn
  exact ⟨o, s', ⟨n, hrun⟩, hout⟩

/-! ## Blocks that are not left -/

/-- No statement of the block leaves it for good. -/
def Calm (m : Sem α β S ε) (b : Block α β) : Prop := ∀ a ∈ b.leaves, ∀ s e, (m.leaf a s).1 ≠ .exit e

theorem exit_of_andThen {k : S → Option (Out ε × S)} {e : ε} (h : andThen r k = some (.exit e, s')) :
    r = some (.exit e, s') ∨ ∃ s, k s = some (.exit e, s') := by
  cases r with
  | none => cases h
  | some x =>
    obtain ⟨o, s⟩ := x
    cases o with
    | normal => exact .inr ⟨s, h⟩
    | _ => exact .inl h

theorem exit_of_afterRound {k d : S → Option (Out ε × S)} {e : ε} (h : afterRound r k d = some (.exit e, s')) :
    r = some (.exit e, s') ∨ (∃ s, k s = some (.exit e, s')) ∨ ∃ s, d s = some (.exit e, s') := by
  cases r with
  | none => cases h
  | some x =>
    obtain ⟨o, s⟩ := x
    cases o with
    | normal => exact .inr (.inl ⟨s, h⟩)
    | cont => exact .inr (.inl ⟨s, h⟩)
    | brk => exact .inr (.inr ⟨s, h⟩)
    | exit e => exact .inl h

/-- A block is left by one of its statements. -/
theorem leaf_of_run {n : Nat} {e : ε} (h : run m n b s = some (.exit e, s')) :
    ∃ a ∈ b.leaves, ∃ t, (m.leaf a t).1 = .exit e := by
  induction n generalizing b s with
  | zero => cases h
  | succ n ih =>
    cases b with
    | nil => cases h
    | leaf a k =>
      rcases exit_of_andThen h with h | ⟨t, h⟩
      · exact ⟨a, List.mem_cons_self, s, congrArg Prod.fst (Option.some.inj h)⟩
      · obtain ⟨a, ha, x⟩ := ih h
        exact ⟨a, List.mem_cons_of_mem _ ha, x⟩
    | branch b t e k =>
      rcases exit_of_andThen h with h | ⟨t, h⟩
      · obtain ⟨a, ha, x⟩ := ih h
        refine ⟨a, ?_, x⟩
        rw [Block.leaves]
        split_ifs at ha <;> simp [ha]
      · obtain ⟨a, ha, x⟩ := ih h
        exact ⟨a, by simp [Block.leaves, ha], x⟩
    | loop first b t k =>
      rw [run] at h
      split_ifs at h
      · rcases exit_of_afterRound h with h | ⟨_, h⟩ | ⟨_, h⟩
        · obtain ⟨a, ha, x⟩ := ih h
          exact ⟨a, by simp [Block.leaves, ha], x⟩
        · exact ih (b := .loop false b t k) h
        · obtain ⟨a, ha, x⟩ := ih h
          exact ⟨a, by simp [Block.leaves, ha], x⟩
      · obtain ⟨a, ha, x⟩ := ih h
        exact ⟨a, by simp [Block.leaves, ha], x⟩

theorem Calm.ne_exit (h : Calm m b) (hr : Runs m b s o s') (e : ε) : o ≠ .exit e := by
  rintro rfl
  obtain ⟨n, hn⟩ := hr
  obtain ⟨a, ha, t, hexit⟩ := leaf_of_run hn
  exact h a ha t e hexit

/-- Every statement and every test adds to the size of the state. -/
structure Grows (m : Sem α β S ε) (size : S → Nat) : Prop where
  leaf : ∀ a s, size s < size (m.leaf a s).2
  test : ∀ h s, size s < size (m.test h s).2
  round : ∀ first h s, size s < size (m.round first h s).2

theorem andThen_grows {size : S → Nat} {k : S → Option (Out ε × S)} {x y : Out ε × S} (hy : r = some y)
    (hk : ∀ s x, k s = some x → size s ≤ size x.2) (h : andThen r k = some x) : size y.2 ≤ size x.2 := by
  obtain ⟨o, t⟩ := y
  rw [hy] at h
  cases o with
  | normal => exact hk t x h
  | _ =>
    cases h
    exact Nat.le_refl _

theorem afterRound_grows {size : S → Nat} {k d : S → Option (Out ε × S)} {x y : Out ε × S} (hy : r = some y)
    (hk : ∀ s x, k s = some x → size s ≤ size x.2) (hd : ∀ s x, d s = some x → size s ≤ size x.2)
    (h : afterRound r k d = some x) : size y.2 ≤ size x.2 := by
  obtain ⟨o, t⟩ := y
  rw [hy] at h
  cases o with
  | normal => exact hk t x h
  | cont => exact hk t x h
  | brk => exact hd t x h
  | exit e =>
    cases h
    exact Nat.le_refl _

theorem run_grows {size : S → Nat} (h : Grows m size) {n : Nat} {x : Out ε × S} (hr : run m n b s = some x) :
    size s ≤ size x.2 ∧ (b ≠ .nil → size s < size x.2) := by
  induction n generalizing b s x with
  | zero => cases hr
  | succ n ih =>
    have hle : ∀ (b : Block α β) (s : S) (x : Out ε × S), run m n b s = some x → size s ≤ size x.2 :=
      fun b s x hx => (ih hx).1
    suffices hlt : b ≠ .nil → size s < size x.2 by
      refine ⟨?_, hlt⟩
      cases b with
      | nil =>
        cases hr
        exact Nat.le_refl _
      | _ => exact Nat.le_of_lt (hlt (by simp))
    intro hne
    cases b with
    | nil => exact absurd rfl hne
    | leaf a k => exact Nat.lt_of_lt_of_le (h.leaf a s) (andThen_grows rfl (hle k) hr)
    | branch b t e k =>
      rw [run] at hr
      cases ht : run m n (if (m.test b s).1 then t else e) (m.test b s).2 with
      | none =>
        rw [ht] at hr
        cases hr
      | some y =>
        have hbody := hle _ _ _ ht
        exact Nat.lt_of_lt_of_le (h.test b s) (Nat.le_trans hbody (andThen_grows ht (hle k) hr))
    | loop first b t k =>
      apply Nat.lt_of_lt_of_le (h.round first b s)
      rw [run] at hr
      split_ifs at hr with hgo
      · cases ht : run m n t (m.round first b s).2 with
        | none =>
          rw [ht] at hr
          cases hr
        | some y => exact Nat.le_trans (hle _ _ _ ht) (afterRound_grows ht (hle _) (hle k) hr)
      · exact hle k _ _ hr

/-- Every statement and every test leads on along a relation that goes on by itself. -/
structure Relates (m : Sem α β S ε) (R : S → S → Prop) : Prop where
  refl : ∀ s, R s s
  trans : ∀ {s t u}, R s t → R t u → R s u
  leaf : ∀ a s, R s (m.leaf a s).2
  test : ∀ h s, R s (m.test h s).2
  round : ∀ first h s, R s (m.round first h s).2

theorem andThen_relates {R : S → S → Prop} (h : Relates m R) {k : S → Option (Out ε × S)} {x y : Out ε × S}
    (hy : r = some y) (hk : ∀ s x, k s = some x → R s x.2) (hr : andThen r k = some x) : R y.2 x.2 := by
  obtain ⟨o, t⟩ := y
  rw [hy] at hr
  cases o with
  | normal => exact hk t x hr
  | _ =>
    cases hr
    exact h.refl _

theorem afterRound_relates {R : S → S → Prop} (h : Relates m R) {k d : S → Option (Out ε × S)} {x y : Out ε × S}
    (hy : r = some y) (hk : ∀ s x, k s = some x → R s x.2) (hd : ∀ s x, d s = some x → R s x.2)
    (hr : afterRound r k d = some x) : R y.2 x.2 := by
  obtain ⟨o, t⟩ := y
  rw [hy] at hr
  cases o with
  | normal => exact hk t x hr
  | cont => exact hk t x hr
  | brk => exact hd t x hr
  | exit e =>
    cases hr
    exact h.refl _

/-- So does every run. -/
theorem run_relates {R : S → S → Prop} (h : Relates m R) {n : Nat} {x : Out ε × S} (hr : run m n b s = some x) :
    R s x.2 := by
  induction n generalizing b s x with
  | zero => cases hr
  | succ n ih =>
    cases b with
    | nil =>
      cases hr
      exact h.refl _
    | leaf a k => exact h.trans (h.leaf a s) (andThen_relates h rfl (fun _ _ => ih) hr)
    | branch b t e k =>
      rw [run] at hr
      cases ht : run m n (if (m.test b s).1 then t else e) (m.test b s).2 with
      | none =>
        rw [ht] at hr
        cases hr
      | some y => exact h.trans (h.test b s) (h.trans (ih ht) (andThen_relates h ht (fun _ _ => ih) hr))
    | loop first b t k =>
      apply h.trans (h.round first b s)
      rw [run] at hr
      split_ifs at hr
      · cases ht : run m n t (m.round first b s).2 with
        | none =>
          rw [ht] at hr
          cases hr
        | some y => exact h.trans (ih ht) (afterRound_relates h ht (fun _ _ => ih) (fun _ _ => ih) hr)
      · exact ih hr

theorem Runs.relates {R : S → S → Prop} (h : Relates m R) (hr : Runs m b s o s') : R s s' := by
  obtain ⟨n, hn⟩ := hr
  exact run_relates h hn

/-! ## Programs -/

/-- Where a block goes when it is left. -/
inductive Jump (Λ V : Type) where
  | goto (l : Λ)
  | ret (v : V)
  deriving DecidableEq, Repr

inductive Seg (α β Λ : Type) where
  | label (l : Λ)
  | code (b : Block α β)
  deriving DecidableEq, Repr

variable {Λ V : Type} [DecidableEq Λ]

/-- What is behind a label. -/
def behind (l : Λ) : List (Seg α β Λ) → List (Seg α β Λ)
  | [] => []
  | .label l' :: p => if l' = l then p else behind l p
  | .code _ :: p => behind l p

/-- The program `p` returns a value, from a place in it on. -/
inductive Exec (m : Sem α β S (Jump Λ V)) (p : List (Seg α β Λ)) : List (Seg α β Λ) → S → V → S → Prop
  | label {l : Λ} {k : List (Seg α β Λ)} {s s' : S} {v : V} (h : Exec m p k s v s') :
    Exec m p (.label l :: k) s v s'
  | code {b : Block α β} {k : List (Seg α β Λ)} {s s₁ s' : S} {v : V} (hb : Runs m b s .normal s₁)
    (h : Exec m p k s₁ v s') : Exec m p (.code b :: k) s v s'
  | goto {b : Block α β} {k : List (Seg α β Λ)} {l : Λ} {s s₁ s' : S} {v : V}
    (hb : Runs m b s (.exit (.goto l)) s₁) (h : Exec m p (behind l p) s₁ v s') :
    Exec m p (.code b :: k) s v s'
  | ret {b : Block α β} {k : List (Seg α β Λ)} {s s' : S} {v : V} (hb : Runs m b s (.exit (.ret v)) s') :
    Exec m p (.code b :: k) s v s'

section

variable {m : Sem α β S (Jump Λ V)} {p k : List (Seg α β Λ)} {x : V}

theorem exec_label {l : Λ} : Exec m p (.label l :: k) s x s' ↔ Exec m p k s x s' := by
  constructor
  · intro h
    cases h with
    | label h => exact h
  · exact .label

theorem exec_normal (hb : Runs m b s .normal s₁) : Exec m p (.code b :: k) s x s' ↔ Exec m p k s₁ x s' := by
  constructor
  · intro h
    cases h with
    | code hb' h =>
      obtain ⟨-, rfl⟩ := hb.unique hb'
      exact h
    | goto hb' => cases (hb.unique hb').1
    | ret hb' => cases (hb.unique hb').1
  · exact .code hb

theorem exec_goto {l : Λ} (hb : Runs m b s (.exit (.goto l)) s₁) :
    Exec m p (.code b :: k) s x s' ↔ Exec m p (behind l p) s₁ x s' := by
  constructor
  · intro h
    cases h with
    | code hb' => cases (hb.unique hb').1
    | goto hb' h =>
      obtain ⟨ho, rfl⟩ := hb.unique hb'
      cases ho
      exact h
    | ret hb' => cases (hb.unique hb').1
  · exact .goto hb

theorem exec_ret {y : V} (hb : Runs m b s (.exit (.ret y)) s₁) :
    Exec m p (.code b :: k) s x s' ↔ x = y ∧ s' = s₁ := by
  constructor
  · intro h
    cases h with
    | code hb' => cases (hb.unique hb').1
    | goto hb' => cases (hb.unique hb').1
    | ret hb' =>
      obtain ⟨ho, rfl⟩ := hb.unique hb'
      cases ho
      exact ⟨rfl, rfl⟩
  · rintro ⟨rfl, rfl⟩
    exact .ret hb

theorem exists_runs_of_exec (h : Exec m p (.code b :: k) s x s') :
    ∃ o s₁, Runs m b s o s₁ ∧ o ≠ .brk ∧ o ≠ .cont := by
  cases h with
  | code hb => exact ⟨_, _, hb, by simp, by simp⟩
  | goto hb => exact ⟨_, _, hb, by simp, by simp⟩
  | ret hb => exact ⟨_, _, hb, by simp, by simp⟩

end

end Flow
