import Markov.Proofs.Exact

/-!
# Optimality of bounded iteration

Bounded iteration plays a game between a player who maximises and one who
minimises, each deciding in their own states.  Its values are those of the game
and the actions that it records are optimal for both players: a player who
keeps to them is never worse off than the values say, whatever the other one
does.
-/

namespace Markov

theorem Direction.flip_notWorse {direction : Direction} {value other : ℚ} :
    direction.flip.NotWorse value other ↔ direction.NotWorse other value := by
  cases direction <;> exact Iff.rfl

namespace Bellman

/-- A policy that picks existing choices in all steps. -/
def Admissible (b : Bellman ℚ) (unknown : BitSet) (count : Nat)
    (policy : Policy) : Prop :=
  ∀ state remaining, b.Writes unknown state → 1 ≤ remaining →
    remaining ≤ count →
    policy state remaining < (b.table.branches state).length

/-- A policy that keeps to recorded actions in the states of one player. -/
def Adheres (b : Bellman ℚ) (unknown : BitSet) (count : Nat)
    (actions : List (List Nat)) (player : Direction) (policy : Policy) : Prop :=
  ∀ state remaining, b.Writes unknown state →
    b.direction state = some player → 1 ≤ remaining → remaining ≤ count →
    policy state remaining = Policy.ofActions actions state remaining

/-- What a state can be worth under the policies that pick existing choices. -/
def outcomes (b : Bellman ℚ) (unknown : BitSet) (x : Array ℚ)
    (count state : Nat) : Set ℚ :=
  { value | ∃ policy, b.Admissible unknown count policy ∧
      (b.follow unknown policy x count).getD state 0 = value }

/-- Values that each player secures by keeping to the actions. -/
structure IsSaddlePoint (b : Bellman ℚ) (unknown : BitSet) (x : Array ℚ)
    (count : Nat) (values : Array ℚ) (actions : List (List Nat)) : Prop where
  /-- The actions are choices that exist. -/
  admissible : b.Admissible unknown count (.ofActions actions)
  /-- The maximiser gets at least the values. -/
  maximiser : ∀ policy, b.Admissible unknown count policy →
    b.Adheres unknown count actions .max policy →
    AtMost values (b.follow unknown policy x count)
  /-- The minimiser pays at most the values. -/
  minimiser : ∀ policy, b.Admissible unknown count policy →
    b.Adheres unknown count actions .min policy →
    AtMost (b.follow unknown policy x count) values
  /-- If both players keep to the actions, the game is worth the values. -/
  both : ∀ policy, (∀ player, b.Adheres unknown count actions player policy) →
    b.follow unknown policy x count = values

private theorem choiceValue_notWorse {b : Bellman ℚ}
    (weights : b.table.NonNegative) (player : Direction) (state choice : Nat)
    {x y : Array ℚ}
    (notWorse : ∀ state, player.NotWorse (x.getD state 0) (y.getD state 0)) :
    player.NotWorse (b.choiceValue state choice x)
      (b.choiceValue state choice y) := by
  cases player with
  | min => exact choiceValue_mono weights state choice notWorse
  | max => exact choiceValue_mono weights state choice notWorse

/-- A player who keeps to the best choices is not worse off than the values
say.  By induction on the steps: in a state of the player the best choice is
followed on values that are not worse, and in a state of the other player the
value is a best one for that player. -/
theorem follow_notWorse {b : Bellman ℚ} (weights : b.table.NonNegative)
    {unknown : BitSet} {x : Array ℚ} {count : Nat} {policy : Policy}
    (player : Direction)
    (directed : 0 < count → ∀ state, b.Writes unknown state →
      b.direction state ≠ none)
    (admissible : b.Admissible unknown count policy)
    (keeps : ∀ state done, b.Writes unknown state →
      b.direction state = some player → done < count →
      policy state (done + 1) =
        b.bestChoice state (b.bounded unknown done x)) :
    ∀ state, player.NotWorse
      ((b.follow unknown policy x count).getD state 0)
      ((b.bounded unknown count x).getD state 0) := by
  induction count with
  | zero =>
      intro state
      exact .refl player _
  | succ count ih =>
      have before := ih
        (fun _ => directed (Nat.succ_pos count))
        (fun state remaining writes positive within =>
          admissible state remaining writes positive (by omega))
        (fun state done writes own earlier =>
          keeps state done writes own (by omega))
      intro state
      rw [Array.getD_eq_getD_getElem?, Array.getD_eq_getD_getElem?,
        getElem?_follow_succ, getElem?_bounded_succ]
      by_cases writes : b.Writes unknown state
      · cases x[state]? with
        | none => exact .refl player _
        | some old =>
            simp only [writes, if_true, Option.map_some, Option.getD_some]
            have followed := choiceValue_notWorse weights player state
              (policy state (count + 1)) before
            cases owner : b.direction state with
            | none =>
                exact (directed (Nat.succ_pos count) state writes owner).elim
            | some direction =>
                by_cases own : direction = player
                · subst direction
                  rw [← keeps state count writes owner (by omega)]
                  exact followed
                · have other : direction = player.flip := by
                    cases direction <;> cases player <;> simp_all [Direction.flip]
                  rw [other] at owner
                  have valid := admissible state (count + 1) writes
                    (by omega) le_rfl
                  have best := bestValue_notWorse owner valid
                    (b.bounded unknown count x) 0
                  rw [bestValue_eq_choiceValue writes.2,
                    Direction.flip_notWorse] at best
                  exact followed.trans best
      · simp only [writes, if_false]
        exact .refl player _

private theorem adheres_bestChoice {b : Bellman ℚ} {unknown : BitSet}
    {x : Array ℚ} {count : Nat} {player : Direction} {policy : Policy}
    (adheres : b.Adheres unknown count (b.actions unknown count x) player
      policy)
    (state done : Nat) (writes : b.Writes unknown state)
    (own : b.direction state = some player) (earlier : done < count) :
    policy state (done + 1) =
      b.bestChoice state (b.bounded unknown done x) := by
  rw [adheres state (done + 1) writes own (by omega) (by omega)]
  exact ofActions_actions writes earlier

theorem isSaddlePoint_bounded {b : Bellman ℚ} (weights : b.table.NonNegative)
    {unknown : BitSet} (x : Array ℚ) {count : Nat}
    (directed : 0 < count → ∀ state, b.Writes unknown state →
      b.direction state ≠ none) :
    b.IsSaddlePoint unknown x count (b.bounded unknown count x)
      (b.actions unknown count x) where
  admissible := by
    intro state remaining writes positive within
    exact ofActions_actions_lt unknown x writes.lt_numStates writes.2 positive
      within
  maximiser := by
    intro policy admissible adheres
    exact follow_notWorse weights .max directed admissible
      (adheres_bestChoice adheres)
  minimiser := by
    intro policy admissible adheres
    exact follow_notWorse weights .min directed admissible
      (adheres_bestChoice adheres)
  both := by
    intro policy adheres
    apply follow_eq_bounded
    intro state done writes earlier
    cases owner : b.direction state with
    | none => exact (directed (by omega) state writes owner).elim
    | some player =>
        exact adheres_bestChoice (adheres player) state done writes owner
          earlier

namespace IsSaddlePoint

variable {b : Bellman ℚ} {unknown : BitSet} {x values : Array ℚ}
  {count : Nat} {actions : List (List Nat)}

theorem mem_outcomes (saddle : b.IsSaddlePoint unknown x count values actions)
    (state : Nat) :
    values.getD state 0 ∈ b.outcomes unknown x count state := by
  refine ⟨.ofActions actions, saddle.admissible, ?_⟩
  rw [saddle.both _ fun _ _ _ _ _ _ _ => rfl]

/-- Without a minimiser the values are the greatest ones. -/
theorem isGreatest (saddle : b.IsSaddlePoint unknown x count values actions)
    (alone : ∀ state, b.direction state ≠ some .min) (state : Nat) :
    IsGreatest (b.outcomes unknown x count state) (values.getD state 0) := by
  refine ⟨saddle.mem_outcomes state, ?_⟩
  rintro value ⟨policy, admissible, rfl⟩
  exact saddle.minimiser policy admissible
    (fun state _ _ own _ _ => (alone state own).elim) state

/-- Without a maximiser the values are the least ones. -/
theorem isLeast (saddle : b.IsSaddlePoint unknown x count values actions)
    (alone : ∀ state, b.direction state ≠ some .max) (state : Nat) :
    IsLeast (b.outcomes unknown x count state) (values.getD state 0) := by
  refine ⟨saddle.mem_outcomes state, ?_⟩
  rintro value ⟨policy, admissible, rfl⟩
  exact saddle.maximiser policy admissible
    (fun state _ _ own _ _ => (alone state own).elim) state

end IsSaddlePoint

private theorem direction_mem {b : Bellman ℚ} {unknown : BitSet} {size : Nat}
    (ready : b.ready unknown size = true) {state : Nat}
    (writes : b.Writes unknown state) : b.direction state ∈ b.directions := by
  have inside := lt_size_directions ready writes
  simp [direction, inside]

private theorem direction_ne {b : Bellman ℚ} {direction other : Direction}
    (different : other ≠ direction)
    (uniform : ∀ entry ∈ b.directions, entry = some direction) (state : Nat) :
    b.direction state ≠ some other := by
  unfold Bellman.direction
  by_cases inside : state < b.directions.size
  · have entry := uniform b.directions[state] (Array.getElem_mem inside)
    simpa [inside, entry] using Ne.symm different
  · simp [inside]

/-- Bounded iteration on states that all have directions gives a saddle point of
the game.  With one player alone its values are the optimum over all policies
that may depend on the number of remaining steps. -/
theorem recorded_isSaddlePoint {ε : Type} (b : Bellman ℚ) (unknown : BitSet)
    (x : Array ℚ) (count : Nat) (weights : b.table.NonNegative)
    (decided : ∀ entry ∈ b.directions, entry ≠ none)
    (ready : 0 < count → b.ready unknown x.size = true)
    (room : count ≤ Word.maxWords) :
    ∃ values actions,
      b.recorded (ε := ε) unknown count x = .ok (values, actions) ∧
        b.IsSaddlePoint unknown x count values actions ∧
        ((∀ entry ∈ b.directions, entry = some .max) → ∀ state,
          IsGreatest (b.outcomes unknown x count state)
            (values.getD state 0)) ∧
        ((∀ entry ∈ b.directions, entry = some .min) → ∀ state,
          IsLeast (b.outcomes unknown x count state)
            (values.getD state 0)) := by
  have saddle : b.IsSaddlePoint unknown x count (b.bounded unknown count x)
      (b.actions unknown count x) :=
    isSaddlePoint_bounded weights x fun positive _ writes =>
      decided _ (direction_mem (ready positive) writes)
  refine ⟨_, _, recorded_eq_ok room ready, saddle, ?_, ?_⟩
  · intro allMax state
    exact saddle.isGreatest (direction_ne (by decide) allMax) state
  · intro allMin state
    exact saddle.isLeast (direction_ne (by decide) allMin) state

/-- A game with rewards: the maximiser owns the first state and the minimiser
the second one, and the third state is the goal. -/
def duel : Bellman ℚ where
  table := ⟨#[[[(1, 1)], [(0, 1 / 2), (2, 1 / 2)]],
    [[(0, 1)], [(1, 2 / 3), (2, 1 / 3)]], [[(2, 1)]]]⟩
  directions := #[some .max, some .min, some .max]
  rewards := some #[[0, 1], [2, 0], [0]]
  options := ⟨true, .absolute, 1 / 1000, 100, .valueIteration, 20, true⟩

theorem duel_isSaddlePoint :
    duel.ready (.ofList [0, 1]) 3 = true ∧
      ∃ values actions,
        duel.recorded (ε := Empty) (.ofList [0, 1]) 3 #[0, 0, 1] =
            .ok (values, actions) ∧
          duel.IsSaddlePoint (.ofList [0, 1]) #[0, 0, 1] 3 values actions := by
  refine ⟨by decide, ?_⟩
  obtain ⟨values, actions, recorded, saddle, -⟩ :=
    recorded_isSaddlePoint duel (.ofList [0, 1]) #[0, 0, 1] 3
      (by decide +kernel) (by decide) (fun _ => by decide) (by decide)
  exact ⟨values, actions, recorded, saddle⟩

end Bellman

end Markov
