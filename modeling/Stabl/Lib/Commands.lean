import Mathlib.Data.Set.Basic

/-!
# `Stabl.Lib.Commands`: while programs over any state, and their program logic

A command changes a state. Its tests may change the state as well, and a test may have no
outcome: then a branch executes neither of its bodies, and a loop ends. `halt` never
finishes.

* `Exec c s s'`: the command, begun in `s`, finishes in `s'`.
* `Derives P c Q` and `DerivesTotal P c Q`: the rules for partial and for total
  correctness. Assertions are predicates on states.
* `derives_iff`, `derivesTotal_iff`: both sets of rules are sound and complete. The weakest
  precondition carries completeness; the rank of a loop is the number of rounds it still
  has before it.
* `Command.Keeps`: every step and every test of a command, taken alone, keeps `I`. Then
  `I` is derivable before and after the command (`Command.Keeps.derives`).
-/

set_option autoImplicit false

namespace Commands

variable {σ : Type}

/-- What a test answers in a state: an outcome, or none, and the state that it leaves. -/
abbrev Test (σ : Type) := σ → Option Bool × σ

/-- While programs. -/
inductive Command (σ : Type) where
  | step (f : σ → σ)
  | skip
  | halt
  | seq (c d : Command σ)
  | branch (test : Test σ) (c d : Command σ)
  | loop (test : Test σ) (c : Command σ)

/-- The command finishes. -/
inductive Exec : Command σ → σ → σ → Prop where
  | step {f : σ → σ} {s : σ} : Exec (.step f) s (f s)
  | skip {s : σ} : Exec .skip s s
  | seq {c d : Command σ} {s s₁ s₂ : σ} (hc : Exec c s s₁) (hd : Exec d s₁ s₂) :
    Exec (.seq c d) s s₂
  | branchTrue {test : Test σ} {c d : Command σ} {s s₁ s₂ : σ} (htest : test s = (some true, s₁))
    (hc : Exec c s₁ s₂) :
    Exec (.branch test c d) s s₂
  | branchFalse {test : Test σ} {c d : Command σ} {s s₁ s₂ : σ}
    (htest : test s = (some false, s₁)) (hd : Exec d s₁ s₂) :
    Exec (.branch test c d) s s₂
  | branchNone {test : Test σ} {c d : Command σ} {s s₁ : σ} (htest : test s = (none, s₁)) :
    Exec (.branch test c d) s s₁
  | loopTrue {test : Test σ} {c : Command σ} {s s₁ s₂ s₃ : σ} (htest : test s = (some true, s₁))
    (hc : Exec c s₁ s₂) (hloop : Exec (.loop test c) s₂ s₃) :
    Exec (.loop test c) s s₃
  | loopEnd {test : Test σ} {c : Command σ} {s s₁ : σ} {outcome : Option Bool}
    (htest : test s = (outcome, s₁)) (hend : outcome ≠ some true) :
    Exec (.loop test c) s s₁

namespace Exec

theorem step_iff {f : σ → σ} {s s' : σ} : Exec (.step f) s s' ↔ s' = f s := by
  constructor
  · intro h
    cases h
    rfl
  · rintro rfl
    exact .step

theorem skip_iff {s s' : σ} : Exec .skip s s' ↔ s' = s := by
  constructor
  · intro h
    cases h
    rfl
  · rintro rfl
    exact .skip

theorem not_halt {s s' : σ} : ¬ Exec .halt s s' := by
  intro h
  cases h

theorem seq_iff {c d : Command σ} {s s' : σ} :
    Exec (.seq c d) s s' ↔ ∃ s₁, Exec c s s₁ ∧ Exec d s₁ s' := by
  constructor
  · intro h
    cases h with
    | seq hc hd => exact ⟨_, hc, hd⟩
  · rintro ⟨s₁, hc, hd⟩
    exact .seq hc hd

section
variable {test : Test σ} {c d : Command σ} {s s' : σ}

theorem branch_iff_true (h : (test s).1 = some true) :
    Exec (.branch test c d) s s' ↔ Exec c (test s).2 s' := by
  constructor
  · intro hexec
    cases hexec with
    | branchTrue htest hc => rwa [htest]
    | branchFalse htest _ => simp [htest] at h
    | branchNone htest => simp [htest] at h
  · exact .branchTrue (Prod.ext h rfl)

theorem branch_iff_false (h : (test s).1 = some false) :
    Exec (.branch test c d) s s' ↔ Exec d (test s).2 s' := by
  constructor
  · intro hexec
    cases hexec with
    | branchTrue htest _ => simp [htest] at h
    | branchFalse htest hd => rwa [htest]
    | branchNone htest => simp [htest] at h
  · exact .branchFalse (Prod.ext h rfl)

theorem branch_iff_none (h : (test s).1 = none) :
    Exec (.branch test c d) s s' ↔ s' = (test s).2 := by
  constructor
  · intro hexec
    cases hexec with
    | branchTrue htest _ => simp [htest] at h
    | branchFalse htest _ => simp [htest] at h
    | branchNone htest => rw [htest]
  · rintro rfl
    exact .branchNone (Prod.ext h rfl)

theorem loop_iff_true (h : (test s).1 = some true) :
    Exec (.loop test c) s s' ↔ ∃ s₁, Exec c (test s).2 s₁ ∧ Exec (.loop test c) s₁ s' := by
  constructor
  · intro hexec
    cases hexec with
    | loopTrue htest hc hloop => exact ⟨_, by rwa [htest], hloop⟩
    | loopEnd htest hend => exact absurd (by rwa [htest] at h) hend
  · rintro ⟨s₁, hc, hloop⟩
    exact .loopTrue (Prod.ext h rfl) hc hloop

theorem loop_iff_end (h : (test s).1 ≠ some true) :
    Exec (.loop test c) s s' ↔ s' = (test s).2 := by
  constructor
  · intro hexec
    cases hexec with
    | loopTrue htest _ _ => exact absurd (by rw [htest]) h
    | loopEnd htest _ => rw [htest]
  · rintro rfl
    exact .loopEnd rfl h

end

end Exec

/-! ### Partial correctness -/

/-- The states in which a test leaves the states of `P` with an outcome of the kind `O`. -/
def After (P : σ → Prop) (test : Test σ) (O : Option Bool → Prop) (s' : σ) : Prop :=
  ∃ s, P s ∧ O (test s).1 ∧ (test s).2 = s'

theorem After.intro {P : σ → Prop} {test : Test σ} {O : Option Bool → Prop} {s s' : σ}
    {outcome : Option Bool} (hs : P s) (htest : test s = (outcome, s')) (ho : O outcome) :
    After P test O s' := ⟨s, hs, by rwa [htest], by rw [htest]⟩

/-- The outcome of a test is `outcome`. -/
abbrev Is (outcome : Option Bool) : Option Bool → Prop := (· = outcome)

/-- A triple holds: started in `P`, the command finishes in `Q` if it finishes. -/
def Valid (P : σ → Prop) (c : Command σ) (Q : σ → Prop) : Prop :=
  ∀ s s', P s → Exec c s s' → Q s'

/-- The rules for partial correctness. -/
inductive Derives : (σ → Prop) → Command σ → (σ → Prop) → Prop where
  | step {f : σ → σ} {Q : σ → Prop} : Derives (fun s => Q (f s)) (.step f) Q
  | skip {Q : σ → Prop} : Derives Q .skip Q
  | halt {P Q : σ → Prop} : Derives P .halt Q
  | seq {c d : Command σ} {P R Q : σ → Prop} (hc : Derives P c R) (hd : Derives R d Q) :
    Derives P (.seq c d) Q
  | branch {test : Test σ} {c d : Command σ} {P Q : σ → Prop}
    (hc : Derives (After P test (Is (some true))) c Q)
    (hd : Derives (After P test (Is (some false))) d Q)
    (hnone : ∀ s, After P test (Is none) s → Q s) :
    Derives P (.branch test c d) Q
  | loop {test : Test σ} {c : Command σ} {I : σ → Prop}
    (hc : Derives (After I test (Is (some true))) c I) :
    Derives I (.loop test c) (After I test (¬ Is (some true) ·))
  | consequence {c : Command σ} {P P' Q Q' : σ → Prop} (hP : ∀ s, P s → P' s)
    (h : Derives P' c Q') (hQ : ∀ s, Q' s → Q s) :
    Derives P c Q

/-- An invariant of a loop's rounds holds when the loop ends, up to its last test. -/
theorem loop_valid {test : Test σ} {c : Command σ} {I : σ → Prop}
    (hc : Valid (After I test (Is (some true))) c I) :
    Valid I (.loop test c) (After I test (¬ Is (some true) ·)) := by
  intro s s' hs hexec
  generalize hloop : Command.loop test c = loop at hexec
  induction hexec with
  | loopTrue htest hbody _ _ ih =>
      cases hloop
      exact ih (hc _ _ (.intro hs htest rfl) hbody) rfl
  | loopEnd htest hend =>
      cases hloop
      exact .intro hs htest hend
  | step | skip | seq | branchTrue | branchFalse | branchNone => cases hloop

/-- The rules are sound. -/
theorem Derives.valid {P Q : σ → Prop} {c : Command σ} (h : Derives P c Q) : Valid P c Q := by
  induction h with
  | step =>
      intro s s' hs hexec
      rw [Exec.step_iff.mp hexec]
      exact hs
  | skip =>
      intro s s' hs hexec
      rw [Exec.skip_iff.mp hexec]
      exact hs
  | halt => exact fun _ _ _ hexec => absurd hexec Exec.not_halt
  | seq _ _ ihc ihd =>
      intro s s' hs hexec
      obtain ⟨s₁, hc, hd⟩ := Exec.seq_iff.mp hexec
      exact ihd s₁ s' (ihc s s₁ hs hc) hd
  | branch _ _ hnone ihc ihd =>
      intro s s' hs hexec
      cases hexec with
      | branchTrue htest hc => exact ihc _ _ (.intro hs htest rfl) hc
      | branchFalse htest hd => exact ihd _ _ (.intro hs htest rfl) hd
      | branchNone htest => exact hnone _ (.intro hs htest rfl)
  | loop _ ih => exact loop_valid ih
  | consequence hP _ hQ ih => exact fun s s' hs hexec => hQ s' (ih s s' (hP s hs) hexec)

/-- The weakest precondition for partial correctness. -/
def wlp (c : Command σ) (Q : σ → Prop) (s : σ) : Prop := ∀ s', Exec c s s' → Q s'

/-- The weakest precondition is derivable: for a loop it is itself the invariant. -/
theorem derives_wlp (c : Command σ) (Q : σ → Prop) : Derives (wlp c Q) c Q := by
  induction c generalizing Q with
  | step f => exact .consequence (fun s hs => hs _ .step) .step fun _ h => h
  | skip => exact .consequence (fun s hs => hs _ .skip) .skip fun _ h => h
  | halt => exact .halt
  | seq c d ihc ihd =>
      refine .seq (.consequence ?_ (ihc (wlp d Q)) fun _ h => h) (ihd Q)
      exact fun s hs s₁ hc s' hd => hs s' (.seq hc hd)
  | branch test c d ihc ihd =>
      refine .branch (.consequence ?_ (ihc Q) fun _ h => h)
        (.consequence ?_ (ihd Q) fun _ h => h) ?_
      · rintro s₁ ⟨s, hs, htrue, rfl⟩ s' hc
        exact hs s' ((Exec.branch_iff_true htrue).mpr hc)
      · rintro s₁ ⟨s, hs, hfalse, rfl⟩ s' hd
        exact hs s' ((Exec.branch_iff_false hfalse).mpr hd)
      · rintro s₁ ⟨s, hs, hnone, rfl⟩
        exact hs _ ((Exec.branch_iff_none hnone).mpr rfl)
  | loop test c ih =>
      refine .consequence (fun _ h => h)
        (.loop (.consequence ?_ (ih (wlp (.loop test c) Q)) fun _ h => h)) ?_
      · rintro s₁ ⟨s, hs, htrue, rfl⟩ s₂ hc s' hloop
        exact hs s' ((Exec.loop_iff_true htrue).mpr ⟨s₂, hc, hloop⟩)
      · rintro s₁ ⟨s, hs, hend, rfl⟩
        exact hs _ ((Exec.loop_iff_end hend).mpr rfl)

/-- The rules derive exactly the triples that hold. -/
theorem derives_iff {P Q : σ → Prop} {c : Command σ} : Derives P c Q ↔ Valid P c Q :=
  ⟨Derives.valid, fun h =>
    .consequence (fun s hs s' hexec => h s s' hs hexec) (derives_wlp c Q) fun _ hQ => hQ⟩

/-! ### Total correctness -/

/-- A total triple holds: started in `P`, the command finishes, and in `Q`. -/
def ValidTotal (P : σ → Prop) (c : Command σ) (Q : σ → Prop) : Prop :=
  ∀ s, P s → ∃ s', Exec c s s' ∧ Q s'

/-- The rules for total correctness. The invariant of a loop is ranked: a round takes it
from `n + 1` to `n`, and at 0 the test ends the loop. -/
inductive DerivesTotal : (σ → Prop) → Command σ → (σ → Prop) → Prop where
  | step {f : σ → σ} {Q : σ → Prop} : DerivesTotal (fun s => Q (f s)) (.step f) Q
  | skip {Q : σ → Prop} : DerivesTotal Q .skip Q
  | seq {c d : Command σ} {P R Q : σ → Prop} (hc : DerivesTotal P c R)
    (hd : DerivesTotal R d Q) :
    DerivesTotal P (.seq c d) Q
  | branch {test : Test σ} {c d : Command σ} {P Q : σ → Prop}
    (hc : DerivesTotal (After P test (Is (some true))) c Q)
    (hd : DerivesTotal (After P test (Is (some false))) d Q)
    (hnone : ∀ s, After P test (Is none) s → Q s) :
    DerivesTotal P (.branch test c d) Q
  | loop {test : Test σ} {c : Command σ} {I : Nat → σ → Prop}
    (hc : ∀ n, DerivesTotal (After (I (n + 1)) test (Is (some true))) c (I n))
    (hzero : ∀ s, I 0 s → (test s).1 ≠ some true) :
    DerivesTotal (fun s => ∃ n, I n s) (.loop test c)
      (After (fun s => ∃ n, I n s) test (¬ Is (some true) ·))
  | consequence {c : Command σ} {P P' Q Q' : σ → Prop} (hP : ∀ s, P s → P' s)
    (h : DerivesTotal P' c Q') (hQ : ∀ s, Q' s → Q s) :
    DerivesTotal P c Q
  -- A command that never finishes satisfies only the empty triples.
  | halt {Q : σ → Prop} : DerivesTotal (fun _ => False) .halt Q

/-- By induction on the rank: a ranked loop finishes. -/
theorem loop_validTotal {test : Test σ} {c : Command σ} {I : Nat → σ → Prop}
    (hc : ∀ n, ValidTotal (After (I (n + 1)) test (Is (some true))) c (I n))
    (hzero : ∀ s, I 0 s → (test s).1 ≠ some true) :
    ValidTotal (fun s => ∃ n, I n s) (.loop test c)
      (After (fun s => ∃ n, I n s) test (¬ Is (some true) ·)) := by
  rintro s ⟨n, hs⟩
  induction n generalizing s with
  | zero => exact ⟨_, .loopEnd rfl (hzero s hs), .intro ⟨0, hs⟩ rfl (hzero s hs)⟩
  | succ n ih =>
      by_cases htrue : (test s).1 = some true
      · obtain ⟨s₂, hbody, hs₂⟩ := hc n (test s).2 ⟨s, hs, htrue, rfl⟩
        obtain ⟨s', hloop, hs'⟩ := ih s₂ hs₂
        exact ⟨s', .loopTrue (Prod.ext htrue rfl) hbody hloop, hs'⟩
      · exact ⟨_, .loopEnd rfl htrue, .intro ⟨n + 1, hs⟩ rfl htrue⟩

/-- The rules for total correctness are sound. -/
theorem DerivesTotal.validTotal {P Q : σ → Prop} {c : Command σ} (h : DerivesTotal P c Q) :
    ValidTotal P c Q := by
  induction h with
  | step => exact fun s hs => ⟨_, .step, hs⟩
  | skip => exact fun s hs => ⟨_, .skip, hs⟩
  | halt => exact fun _ hs => hs.elim
  | seq _ _ ihc ihd =>
      intro s hs
      obtain ⟨s₁, hc, hs₁⟩ := ihc s hs
      obtain ⟨s', hd, hs'⟩ := ihd s₁ hs₁
      exact ⟨s', .seq hc hd, hs'⟩
  | @branch test c d P Q _ _ hnone ihc ihd =>
      intro s hs
      rcases houtcome : test s with ⟨_ | _ | _, s₁⟩
      · exact ⟨s₁, .branchNone houtcome, hnone s₁ (.intro hs houtcome rfl)⟩
      · obtain ⟨s', hd, hs'⟩ := ihd s₁ (.intro hs houtcome rfl)
        exact ⟨s', .branchFalse houtcome hd, hs'⟩
      · obtain ⟨s', hc, hs'⟩ := ihc s₁ (.intro hs houtcome rfl)
        exact ⟨s', .branchTrue houtcome hc, hs'⟩
  | loop _ hzero ih => exact loop_validTotal ih hzero
  | consequence hP _ hQ ih =>
      intro s hs
      obtain ⟨s', hexec, hs'⟩ := ih s (hP s hs)
      exact ⟨s', hexec, hQ s' hs'⟩

/-- The command has no loop and does not halt. -/
def Command.loopless : Command σ → Bool
  | .step _ | .skip => true
  | .halt | .loop _ _ => false
  | .seq c d | .branch _ c d => c.loopless && d.loopless

/-- A command without loops finishes. -/
theorem Command.derivesTotal_of_loopless {c : Command σ} (h : c.loopless = true) :
    DerivesTotal (fun _ => True) c fun _ => True := by
  induction c with
  | step f => exact .consequence (fun _ h => h) (.step (Q := fun _ => True)) fun _ h => h
  | skip => exact .skip
  | halt => cases h
  | loop test c _ => cases h
  | seq c d ihc ihd =>
      rw [loopless, Bool.and_eq_true] at h
      exact .seq (ihc h.1) (ihd h.2)
  | branch test c d ihc ihd =>
      rw [loopless, Bool.and_eq_true] at h
      exact .branch (.consequence (fun _ _ => trivial) (ihc h.1) fun _ h => h)
        (.consequence (fun _ _ => trivial) (ihd h.2) fun _ h => h) fun _ _ => trivial

/-- The loop finishes from `s`, in `Q`, after `n` rounds. -/
inductive Rounds (test : Test σ) (c : Command σ) (Q : σ → Prop) : Nat → σ → Prop where
  | last {s : σ} (hend : (test s).1 ≠ some true) (hQ : Q (test s).2) : Rounds test c Q 0 s
  | round {n : Nat} {s s₂ : σ} (htrue : (test s).1 = some true) (hc : Exec c (test s).2 s₂)
    (h : Rounds test c Q n s₂) :
    Rounds test c Q (n + 1) s

/-- A loop that finishes has some number of rounds. -/
theorem rounds_of_exec {test : Test σ} {c : Command σ} {Q : σ → Prop} {s s' : σ}
    (hexec : Exec (.loop test c) s s') (hQ : Q s') : ∃ n, Rounds test c Q n s := by
  generalize hloop : Command.loop test c = loop at hexec
  induction hexec with
  | loopTrue htest hbody _ _ ih =>
      cases hloop
      obtain ⟨n, hn⟩ := ih hQ rfl
      exact ⟨n + 1, .round (by rw [htest]) (by rwa [htest]) hn⟩
  | loopEnd htest hend =>
      cases hloop
      exact ⟨0, .last (by rwa [htest]) (by rwa [htest])⟩
  | step | skip | seq | branchTrue | branchFalse | branchNone => cases hloop

/-- The weakest precondition for total correctness. -/
def wp (c : Command σ) (Q : σ → Prop) (s : σ) : Prop := ∃ s', Exec c s s' ∧ Q s'

/-- The weakest precondition is derivable; a loop is ranked by its rounds. -/
theorem derivesTotal_wp (c : Command σ) (Q : σ → Prop) : DerivesTotal (wp c Q) c Q := by
  induction c generalizing Q with
  | step f =>
      refine .consequence ?_ .step fun _ h => h
      rintro s ⟨s', hexec, hQ⟩
      rwa [← Exec.step_iff.mp hexec]
  | skip =>
      refine .consequence ?_ .skip fun _ h => h
      rintro s ⟨s', hexec, hQ⟩
      rwa [← Exec.skip_iff.mp hexec]
  | halt =>
      refine .consequence ?_ (.halt (Q := Q)) fun _ h => h
      rintro s ⟨s', hexec, _⟩
      exact Exec.not_halt hexec
  | seq c d ihc ihd =>
      refine .seq (.consequence ?_ (ihc (wp d Q)) fun _ h => h) (ihd Q)
      rintro s ⟨s', hexec, hQ⟩
      obtain ⟨s₁, hc, hd⟩ := Exec.seq_iff.mp hexec
      exact ⟨s₁, hc, s', hd, hQ⟩
  | branch test c d ihc ihd =>
      refine .branch (.consequence ?_ (ihc Q) fun _ h => h)
        (.consequence ?_ (ihd Q) fun _ h => h) ?_
      · rintro s₁ ⟨s, ⟨s', hexec, hQ⟩, htrue, rfl⟩
        exact ⟨s', (Exec.branch_iff_true htrue).mp hexec, hQ⟩
      · rintro s₁ ⟨s, ⟨s', hexec, hQ⟩, hfalse, rfl⟩
        exact ⟨s', (Exec.branch_iff_false hfalse).mp hexec, hQ⟩
      · rintro s₁ ⟨s, ⟨s', hexec, hQ⟩, hnone, rfl⟩
        rwa [← (Exec.branch_iff_none hnone).mp hexec]
  | loop test c ih =>
      have hbody : ∀ n, DerivesTotal (After (Rounds test c Q (n + 1)) test (Is (some true))) c
          (Rounds test c Q n) := by
        intro n
        refine .consequence ?_ (ih (Rounds test c Q n)) fun _ h => h
        rintro s₁ ⟨s, hrounds, _, rfl⟩
        cases hrounds with
        | round _ hc h => exact ⟨_, hc, h⟩
      have hend : ∀ s, Rounds test c Q 0 s → ¬ Is (some true) (test s).1 := by
        intro s hs
        cases hs with
        | last hend _ => exact hend
      refine .consequence ?_ (.loop hbody hend) ?_
      · rintro s ⟨s', hexec, hQ⟩
        exact rounds_of_exec hexec hQ
      · rintro s₁ ⟨s, ⟨n, hrounds⟩, hend, rfl⟩
        cases hrounds with
        | last _ hQ => exact hQ
        | round htrue _ _ => exact absurd htrue hend

/-- The rules derive exactly the total triples that hold. -/
theorem derivesTotal_iff {P Q : σ → Prop} {c : Command σ} :
    DerivesTotal P c Q ↔ ValidTotal P c Q :=
  ⟨DerivesTotal.validTotal, fun h => .consequence h (derivesTotal_wp c Q) fun _ hQ => hQ⟩

/-! ### What every step keeps -/

/-- Every step and every test of the command, taken alone, keeps `I`. -/
def Command.Keeps (I : σ → Prop) : Command σ → Prop
  | .step f => ∀ s, I s → I (f s)
  | .skip | .halt => True
  | .seq c d => c.Keeps I ∧ d.Keeps I
  | .branch test c d => (∀ s, I s → I (test s).2) ∧ c.Keeps I ∧ d.Keeps I
  | .loop test c => (∀ s, I s → I (test s).2) ∧ c.Keeps I

/-- A command keeps what all its parts keep. -/
theorem Command.Keeps.derives {I : σ → Prop} {c : Command σ} (h : c.Keeps I) : Derives I c I := by
  induction c with
  | step f => exact .consequence h .step fun _ hs => hs
  | skip => exact .skip
  | halt => exact .halt
  | seq c d ihc ihd => exact .seq (ihc h.1) (ihd h.2)
  | branch test c d ihc ihd =>
      have htest : ∀ outcome s, After I test (Is outcome) s → I s := by
        rintro outcome _ ⟨s, hs, _, rfl⟩
        exact h.1 s hs
      exact .branch (.consequence (htest _) (ihc h.2.1) fun _ hs => hs)
        (.consequence (htest _) (ihd h.2.2) fun _ hs => hs) (htest none)
  | loop test c ih =>
      have htest : ∀ O s, After I test O s → I s := by
        rintro O _ ⟨s, hs, _, rfl⟩
        exact h.1 s hs
      exact .consequence (fun _ hs => hs)
        (.loop (.consequence (htest _) (ih h.2) fun _ hs => hs)) (htest _)

end Commands
