import ProjectRoots.Dependent.Round

/- A round, turn by turn. The dependents take their turns in the order of their registration. In its
   turn a dependent is led from the path that it stores to where the journal has this path now, if a
   rename takes part in that, and what becomes of it has nothing to do with the other dependents.

     1. `foldl_next`, `pursue_eq` — what the loop over the relocations finds out about a path: where
        they lead it, whether a rename takes part in that, and the positions of those that do.
     2. `takesRename_iff` — when a rename takes part in moving a path.
     3. `reconcile_of_left`, `reconcile_of_refusal`, `reconcile_of_goal` — the three kinds of turns.
     4. `reconcileAll_append` — a round over some dependents and then over others. The later turns
        begin with the workspace and the policy that the earlier ones leave.
     5. `settles_round` — so what a round does, dependent by dependent. -/
namespace ProjectRoots

/-! ## The way of a path -/

/-- The relocations that move a path when all are replayed in order, each with its position,
counted from `position`. -/
def trail (position : Nat) : List Relocation → List Char → List (Nat × Relocation)
  | [], _ => []
  | relocation :: rest, path =>
    match relocation.apply path with
    | some next => (position, relocation) :: trail (position + 1) rest next
    | none => trail (position + 1) rest path

/-- Whether a rename takes part in moving a path. -/
def takesRename (relocations : List Relocation) (path : List Char) : Bool :=
  (trail 0 relocations path).any (·.2.cause == .rename)

/-- What the loop over the relocations adds to what it has found so far. -/
theorem foldl_next (relocations : List Relocation) (pursuit : Pursuit) (position : Nat) :
    (relocations.zipIdx position).foldl Pursuit.next pursuit =
      { current := replay relocations pursuit.current
        renamed := pursuit.renamed ||
          (trail position relocations pursuit.current).any (·.2.cause == .rename)
        applied := pursuit.applied ++ (trail position relocations pursuit.current).map (·.1) } := by
  induction relocations generalizing pursuit position with
  | nil => simp [replay, trail]
  | cons relocation rest ih =>
    have hcarry : replay (relocation :: rest) pursuit.current =
        replay rest (relocation.carry pursuit.current) := rfl
    rw [List.zipIdx_cons, List.foldl_cons, ih, hcarry, Relocation.carry, Pursuit.next, trail]
    cases relocation.apply pursuit.current with
    | none => rfl
    | some next => simp [Bool.or_assoc]

/-- What the loop finds out about a path, each by itself. -/
theorem pursue_eq (relocations : List Relocation) (path : List Char) :
    pursue relocations path =
      { current := replay relocations path
        renamed := takesRename relocations path
        applied := (trail 0 relocations path).map (·.1) } := by
  rw [pursue, foldl_next, Bool.false_or, List.nil_append]
  rfl

theorem replay_of_trail_nil {relocations : List Relocation} {path : List Char} {position : Nat}
    (h : trail position relocations path = []) : replay relocations path = path := by
  induction relocations generalizing position with
  | nil => rfl
  | cons relocation rest ih =>
    unfold trail at h
    split at h
    · cases h
    · rename_i hn
      change replay rest (relocation.carry path) = path
      rw [Relocation.carry, hn, Option.getD_none]
      exact ih h

/-- Of the relocations that move the path when all are replayed in order, one is a rename. -/
def MovedByRename (relocations : List Relocation) (path : List Char) : Prop :=
  ∃ before relocation after, relocations = before ++ relocation :: after ∧
    relocation.cause = .rename ∧ relocation.apply (replay before path) ≠ none

theorem movedByRename_cons {relocation : Relocation} {rest : List Relocation} {path : List Char} :
    MovedByRename (relocation :: rest) path ↔
      (relocation.cause = .rename ∧ relocation.apply path ≠ none) ∨
        MovedByRename rest (relocation.carry path) := by
  constructor
  · intro h
    obtain ⟨before, found, after, hsplit, hrename⟩ := h
    cases before with
    | nil =>
      obtain ⟨rfl, rfl⟩ := List.cons.inj hsplit
      exact Or.inl hrename
    | cons first before =>
      obtain ⟨rfl, rfl⟩ := List.cons.inj hsplit
      exact Or.inr ⟨before, found, after, rfl, hrename⟩
  · intro h
    rcases h with hrename | ⟨before, found, after, rfl, hrename⟩
    · exact ⟨[], relocation, rest, rfl, hrename⟩
    · exact ⟨relocation :: before, found, after, rfl, hrename⟩

theorem any_trail_iff {relocations : List Relocation} {path : List Char} {position : Nat} :
    (trail position relocations path).any (·.2.cause == .rename) = true ↔
      MovedByRename relocations path := by
  induction relocations generalizing position path with
  | nil =>
    constructor
    · intro h
      cases h
    · intro h
      obtain ⟨before, found, after, hsplit, _⟩ := h
      simp at hsplit
  | cons relocation rest ih =>
    rw [movedByRename_cons, trail, Relocation.carry]
    cases happly : relocation.apply path with
    | none => simp [ih]
    | some next => simp [ih]

theorem takesRename_iff {relocations : List Relocation} {path : List Char} :
    takesRename relocations path = true ↔ MovedByRename relocations path :=
  any_trail_iff

instance (relocations : List Relocation) (path : List Char) :
    Decidable (MovedByRename relocations path) :=
  decidable_of_iff (takesRename relocations path = true) takesRename_iff

namespace Journal

/-- Where a round over the noted relocations leads a path: where it is now, if a rename takes part
in moving it. -/
def goal? (journal : Journal) (path : List Char) : Option (List Char) :=
  if MovedByRename journal.entries path then journal.resolve path else none

/-- The old and the new path of a dependent that such a round rewrites. -/
def rewriting? (journal : Journal) (dependent : Dependent) : Option (List Char × List Char) :=
  if dependent.refusal = none then
    (journal.goal? dependent.path).map fun new => (dependent.path, new)
  else none

/-- What such a round makes of a dependent. -/
def settle (journal : Journal) (dependent : Dependent) : Dependent :=
  match journal.goal? dependent.path with
  | some new =>
    if dependent.refusal = none then { dependent.answered with path := new }
    else dependent.answered
  | none => dependent

/-- What becomes of a dependent in its turn. It is told a new path only if it is led to one. -/
inductive Treats (journal : Journal) (dependent : Dependent) : Dependent → Outcome → Prop
  /-- It is led nowhere, and is not told anything. -/
  | left (hgoal : journal.goal? dependent.path = none) :
    Treats journal dependent dependent .untouched
  /-- It does not store the path that it is led to. -/
  | refused {new : List Char} {refusal : Refusal} {positions : List Nat}
    (hgoal : journal.goal? dependent.path = some new)
    (hrefusal : dependent.refusal = some refusal) :
    Treats journal dependent dependent.answered
      (.refused positions dependent.path (refusal.message dependent.path new))
  /-- It stores the path that it is led to. -/
  | rewritten {new : List Char} {positions : List Nat} {identity : Identity}
    (hgoal : journal.goal? dependent.path = some new) (hwilling : dependent.refusal = none) :
    Treats journal dependent { dependent.answered with path := new }
      (.rewritten positions dependent.path new identity)

variable {journal : Journal} {dependent later : Dependent} {outcome : Outcome}

theorem goal?_eq_some_iff {path new : List Char} :
    journal.goal? path = some new ↔
      (takesRename journal.entries path = true ∧ replay journal.entries path ≠ path) ∧
        replay journal.entries path = new := by
  simp only [goal?, ← takesRename_iff, resolve]
  split
  · rename_i htakes
    simp [htakes]
  · rename_i hnone
    simp [hnone]

theorem goal?_eq_none_iff {path : List Char} :
    journal.goal? path = none ↔
      ¬(takesRename journal.entries path = true ∧ replay journal.entries path ≠ path) := by
  constructor
  · intro hnone hled
    rw [goal?_eq_some_iff.2 ⟨hled, rfl⟩] at hnone
    cases hnone
  · intro hnot
    rw [Option.eq_none_iff_forall_ne_some]
    intro new hgoal
    exact hnot (goal?_eq_some_iff.1 hgoal).1

/-- The outcome tells of the rewriting, and it is all that happens to the dependent. -/
theorem Treats.rewriting (htreats : journal.Treats dependent later outcome) :
    outcome.updated? = journal.rewriting? dependent ∧ later = journal.settle dependent := by
  unfold settle rewriting?
  cases htreats with
  | left hgoal => simp [Outcome.updated?, hgoal]
  | refused hgoal hrefusal => simp [Outcome.updated?, hgoal, hrefusal]
  | rewritten hgoal hwilling => simp [Outcome.updated?, hgoal, hwilling]

end Journal

namespace Policy
variable (policy : Policy) (journal : Journal) (workspace : Workspace)

/-! ## One turn -/

section
variable {dependent : Dependent}

theorem reconcile_of_left (hgoal : journal.goal? dependent.path = none) :
    policy.reconcile journal.entries workspace dependent =
      (workspace, dependent, .untouched) := by
  rw [Journal.goal?_eq_none_iff] at hgoal
  simp only [reconcile, pursue_eq, if_neg hgoal]

theorem reconcile_of_refusal {new : List Char} {refusal : Refusal}
    (hgoal : journal.goal? dependent.path = some new)
    (hrefusal : dependent.refusal = some refusal) :
    policy.reconcile journal.entries workspace dependent =
      (workspace, dependent.answered,
        .refused ((trail 0 journal.entries dependent.path).map (·.1)) dependent.path
          (refusal.message dependent.path new)) := by
  obtain ⟨hled, rfl⟩ := Journal.goal?_eq_some_iff.1 hgoal
  simp only [reconcile, pursue_eq, if_pos hled, hrefusal]

theorem reconcile_of_goal {new : List Char} (hgoal : journal.goal? dependent.path = some new)
    (hwilling : dependent.refusal = none) :
    policy.reconcile journal.entries workspace dependent =
      ((policy.rename workspace dependent.entity dependent.path new).1,
        { dependent.answered with path := new },
        .rewritten ((trail 0 journal.entries dependent.path).map (·.1)) dependent.path new
          (policy.rename workspace dependent.entity dependent.path new).2) := by
  obtain ⟨hled, rfl⟩ := Journal.goal?_eq_some_iff.1 hgoal
  simp only [reconcile, pursue_eq, if_pos hled, hwilling]

theorem treats_reconcile (dependent : Dependent) :
    journal.Treats dependent (policy.reconcile journal.entries workspace dependent).2.1
      (policy.reconcile journal.entries workspace dependent).2.2 := by
  cases hgoal : journal.goal? dependent.path with
  | none =>
    rw [policy.reconcile_of_left journal workspace hgoal]
    exact .left hgoal
  | some new =>
    cases hrefusal : dependent.refusal with
    | some refusal =>
      rw [policy.reconcile_of_refusal journal workspace hgoal hrefusal]
      exact .refused hgoal hrefusal
    | none =>
      rw [policy.reconcile_of_goal journal workspace hgoal hrefusal]
      exact .rewritten hgoal hrefusal

/-- A turn leaves the workspace as it is, and makes no commit, or the dependent is rewritten and its
entity follows. -/
theorem reconcile_cases (relocations : List Relocation) (dependent : Dependent) :
    (∃ later outcome, later.path = dependent.path ∧ later.entity = dependent.entity ∧
      Outcome.committed outcome = false ∧
      policy.reconcile relocations workspace dependent = (workspace, later, outcome)) ∨
    ∃ positions,
      let new := replay relocations dependent.path
      let renamed := policy.rename workspace dependent.entity dependent.path new
      policy.reconcile relocations workspace dependent =
        (renamed.1, { dependent.answered with path := new },
          .rewritten positions dependent.path new renamed.2) := by
  let journal : Journal := ⟨relocations⟩
  cases hgoal : journal.goal? dependent.path with
  | none =>
    exact Or.inl ⟨_, _, rfl, rfl, rfl, policy.reconcile_of_left journal workspace hgoal⟩
  | some new =>
    cases hrefusal : dependent.refusal with
    | some refusal =>
      exact Or.inl ⟨dependent.answered, _, rfl, rfl, rfl,
        policy.reconcile_of_refusal journal workspace hgoal hrefusal⟩
    | none =>
      have hturn := policy.reconcile_of_goal journal workspace hgoal hrefusal
      obtain ⟨_, rfl⟩ := Journal.goal?_eq_some_iff.1 hgoal
      exact Or.inr ⟨_, hturn⟩

/-- A dependent that stores nothing new in its turn leaves the workspace as it is, and the policy
too. -/
theorem reconcile_of_idle
    (hidle : dependent.refusal ≠ none ∨ journal.goal? dependent.path = none) :
    (policy.reconcile journal.entries workspace dependent).1 = workspace ∧
      policy.behind (policy.reconcile journal.entries workspace dependent).2.2 = policy := by
  cases hgoal : journal.goal? dependent.path with
  | none =>
    rw [policy.reconcile_of_left journal workspace hgoal]
    exact ⟨rfl, rfl⟩
  | some new =>
    cases hrefusal : dependent.refusal with
    | some refusal =>
      rw [policy.reconcile_of_refusal journal workspace hgoal hrefusal]
      exact ⟨rfl, rfl⟩
    | none =>
      rcases hidle with hrefuses | hled
      · exact absurd hrefusal hrefuses
      · rw [hgoal] at hled
        cases hled

end

/-! ## All turns -/

/-- Which files are descriptors is the same in all turns. -/
theorem descriptorExtensions_behind (outcome : Outcome) :
    (policy.behind outcome).descriptorExtensions = policy.descriptorExtensions := by
  unfold behind
  split <;> rfl

theorem descriptorExtensions_foldl_behind (outcomes : List Outcome) :
    (outcomes.foldl behind policy).descriptorExtensions = policy.descriptorExtensions := by
  induction outcomes generalizing policy with
  | nil => rfl
  | cons outcome rest ih => rw [List.foldl_cons, ih, descriptorExtensions_behind]

section
variable (relocations : List Relocation)

theorem reconcileAll_cons (dependent : Dependent) (rest : List Dependent) :
    policy.reconcileAll relocations workspace (dependent :: rest) =
      let turn := policy.reconcile relocations workspace dependent
      let others := (policy.behind turn.2.2).reconcileAll relocations turn.1 rest
      (others.1, turn.2.1 :: others.2.1, turn.2.2 :: others.2.2) :=
  rfl

theorem reconcileAll_append (front back : List Dependent) :
    policy.reconcileAll relocations workspace (front ++ back) =
      let first := policy.reconcileAll relocations workspace front
      let second := (first.2.2.foldl behind policy).reconcileAll relocations first.1 back
      (second.1, first.2.1 ++ second.2.1, first.2.2 ++ second.2.2) := by
  induction front generalizing policy workspace with
  | nil => rfl
  | cons dependent rest ih =>
    simp only [List.cons_append, reconcileAll_cons, ih, List.foldl_cons]

/-- Without relocations nobody is led anywhere. -/
theorem reconcileAll_nil (dependents : List Dependent) :
    policy.reconcileAll [] workspace dependents =
      (workspace, dependents, dependents.map fun _ => .untouched) := by
  induction dependents with
  | nil => rfl
  | cons dependent rest ih =>
    have hleft : (⟨[]⟩ : Journal).goal? dependent.path = none := by
      rw [Journal.goal?_eq_none_iff]
      simp [takesRename, trail]
    have hturn := policy.reconcile_of_left ⟨[]⟩ workspace hleft
    have hbehind : policy.behind .untouched = policy := rfl
    rw [reconcileAll_cons, hturn]
    simp only [hbehind, ih, List.map_cons]

theorem length_reconcileAll (dependents : List Dependent) :
    (policy.reconcileAll relocations workspace dependents).2.1.length = dependents.length ∧
      (policy.reconcileAll relocations workspace dependents).2.2.length = dependents.length := by
  induction dependents generalizing policy workspace with
  | nil => exact ⟨rfl, rfl⟩
  | cons dependent rest ih =>
    obtain ⟨hdependents, houtcomes⟩ :=
      ih (policy.behind (policy.reconcile relocations workspace dependent).2.2)
        (policy.reconcile relocations workspace dependent).1
    rw [reconcileAll_cons]
    exact ⟨congrArg (· + 1) hdependents, congrArg (· + 1) houtcomes⟩

/-- What a dependent comes to in its turn is found at its place. -/
theorem getElem?_reconcileAll (front back : List Dependent) (dependent : Dependent) :
    let first := policy.reconcileAll relocations workspace front
    let turn := (first.2.2.foldl behind policy).reconcile relocations first.1 dependent
    let all := policy.reconcileAll relocations workspace (front ++ dependent :: back)
    all.2.1[front.length]? = some turn.2.1 ∧ all.2.2[front.length]? = some turn.2.2 := by
  obtain ⟨hdependents, houtcomes⟩ := policy.length_reconcileAll workspace relocations front
  simp only [reconcileAll_append, reconcileAll_cons]
  rw [List.getElem?_append_right (by omega), List.getElem?_append_right (by omega), hdependents,
    houtcomes, Nat.sub_self]
  exact ⟨rfl, rfl⟩

end

theorem dependents_settled (dependents : List Dependent) :
    (policy.reconcileAll journal.entries workspace dependents).2.1 =
      dependents.map journal.settle := by
  induction dependents generalizing policy workspace with
  | nil => rfl
  | cons dependent rest ih =>
    rw [reconcileAll_cons, List.map_cons, ← ih, ← (policy.treats_reconcile ..).rewriting.2]

theorem updated_outcomes (dependents : List Dependent) :
    (policy.reconcileAll journal.entries workspace dependents).2.2.filterMap Outcome.updated? =
      dependents.filterMap journal.rewriting? := by
  induction dependents generalizing policy workspace with
  | nil => rfl
  | cons dependent rest ih =>
    rw [reconcileAll_cons, List.filterMap_cons, List.filterMap_cons, ih,
      (policy.treats_reconcile ..).rewriting.1]

end Policy

namespace Project

/-- What a round over the noted relocations does, dependent by dependent. -/
structure Settles (project : Project) (policy : Policy) (journal : Journal) (next : Project)
    (report : Report) : Prop where
  /-- Every dependent has its turn, in which only its path and its refusal count. -/
  treated : ∀ front dependent back, project.dependents = front ++ dependent :: back →
    ∃ later outcome, next.dependents[front.length]? = some later ∧
      report.outcomes[front.length]? = some outcome ∧ journal.Treats dependent later outcome
  /-- There are no other turns. -/
  turns : report.outcomes.length = project.dependents.length
  /-- So what is stored afterwards does not depend on the other dependents, on the workspace or on
  what is refused there. -/
  settled : next.dependents = project.dependents.map journal.settle
  /-- Just the dependents that were rewritten are reported as such, in their order. -/
  updated : report.updated = project.dependents.filterMap journal.rewriting?
  /-- A dependent that refuses is reported with the path that it stores. -/
  refused : ∀ dependent ∈ project.dependents, ∀ refusal new,
    journal.goal? dependent.path = some new → dependent.refusal = some refusal →
      (dependent.path, refusal.message dependent.path new) ∈ report.failures
  /-- Nothing else is done for a dependent that refuses or is led nowhere: without it the round is
  the same. -/
  idle : ∀ front dependent back, project.dependents = front ++ dependent :: back →
    dependent.refusal ≠ none ∨ journal.goal? dependent.path = none →
      let without := { project with dependents := front ++ back }.round policy journal.entries
      without.1.workspace = next.workspace ∧ without.1.modifications = next.modifications ∧
        without.2.outcomes = report.outcomes.eraseIdx front.length
  /-- The round is counted once if any dependent was rewritten. -/
  counted : next.modifications = project.modifications + if report.updated = [] then 0 else 1

variable (project : Project) (policy : Policy) (journal : Journal)

theorem updated_round :
    (project.round policy journal.entries).2.updated =
      project.dependents.filterMap journal.rewriting? :=
  policy.updated_outcomes journal project.workspace project.dependents

/-- A round over no relocations changes nothing. -/
theorem round_nil : (project.round policy []).1 = project := by
  have hupdated : (project.dependents.map fun _ => Outcome.untouched).filterMap
      Outcome.updated? = [] := by
    simp [Outcome.updated?]
  simp only [round, Policy.reconcileAll_nil, Report.updated, hupdated, if_true]

theorem modifications_round (relocations : List Relocation) :
    (project.round policy relocations).1.modifications =
      project.modifications +
        if (project.round policy relocations).2.updated = [] then 0 else 1 := by
  have hround : (project.round policy relocations).1.modifications =
      if (project.round policy relocations).2.updated = [] then project.modifications
      else project.modifications + 1 := rfl
  rw [hround]
  split <;> rfl

theorem treated_round {front back : List Dependent} {dependent : Dependent}
    (hsplit : project.dependents = front ++ dependent :: back) :
    ∃ later outcome,
      (project.round policy journal.entries).1.dependents[front.length]? = some later ∧
        (project.round policy journal.entries).2.outcomes[front.length]? = some outcome ∧
        journal.Treats dependent later outcome := by
  obtain ⟨hlater, houtcome⟩ :=
    policy.getElem?_reconcileAll project.workspace journal.entries front back dependent
  rw [← hsplit] at hlater houtcome
  exact ⟨_, _, hlater, houtcome, Policy.treats_reconcile _ journal _ dependent⟩

theorem round_without {front back : List Dependent} {dependent : Dependent}
    (hsplit : project.dependents = front ++ dependent :: back)
    (hidle : dependent.refusal ≠ none ∨ journal.goal? dependent.path = none) :
    let without := { project with dependents := front ++ back }.round policy journal.entries
    let round := project.round policy journal.entries
    without.1.workspace = round.1.workspace ∧
      without.1.modifications = round.1.modifications ∧
      without.2.outcomes = round.2.outcomes.eraseIdx front.length := by
  have hlength := (policy.length_reconcileAll project.workspace journal.entries front).2
  let first := policy.reconcileAll journal.entries project.workspace front
  obtain ⟨hturn, hpolicy⟩ :=
    (first.2.2.foldl Policy.behind policy).reconcile_of_idle journal first.1 hidle
  have hnone : journal.rewriting? dependent = none := by
    unfold Journal.rewriting?
    rcases hidle with hrefuses | hgoal
    · rw [if_neg hrefuses]
    · simp [hgoal]
  refine ⟨?_, ?_, ?_⟩
  · simp only [round, hsplit, Policy.reconcileAll_append, Policy.reconcileAll_cons]
    rw [hturn, hpolicy]
  · -- Whether a round is counted depends on what is rewritten alone, whatever the workspace.
    rw [modifications_round, modifications_round, updated_round, updated_round, hsplit,
      List.filterMap_append, List.filterMap_append, List.filterMap_cons_none hnone]
  · simp only [round, hsplit, Policy.reconcileAll_append, Policy.reconcileAll_cons]
    rw [hturn, hpolicy, List.eraseIdx_append_of_length_le (by omega), hlength, Nat.sub_self,
      List.eraseIdx_cons_zero]

theorem settles_round :
    project.Settles policy journal (project.round policy journal.entries).1
      (project.round policy journal.entries).2 where
  treated _ _ _ hsplit := project.treated_round policy journal hsplit
  turns := (policy.length_reconcileAll project.workspace journal.entries project.dependents).2
  settled := policy.dependents_settled journal project.workspace project.dependents
  updated := project.updated_round policy journal
  refused dependent hmem refusal new hgoal hrefusal := by
    obtain ⟨front, back, hsplit⟩ := List.append_of_mem hmem
    obtain ⟨later, outcome, _, houtcome, htreats⟩ := project.treated_round policy journal hsplit
    refine List.mem_filterMap.2 ⟨outcome, List.mem_of_getElem? houtcome, ?_⟩
    cases htreats with
    | left hnone => simp [hgoal] at hnone
    | refused hgoal' hrefusal' =>
      obtain rfl := Option.some.inj (hgoal.symm.trans hgoal')
      obtain rfl := Option.some.inj (hrefusal.symm.trans hrefusal')
      rfl
    | rewritten _ hwilling => simp [hrefusal] at hwilling
  idle _ _ _ hsplit hidle := project.round_without policy journal hsplit hidle
  counted := project.modifications_round policy journal.entries

end Project

end ProjectRoots
