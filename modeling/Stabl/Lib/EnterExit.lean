import Mathlib.Data.List.Induction
import Mathlib.Data.List.Nodup

/-!
# `Stabl.Lib.EnterExit`: logs of entries and exits

A component that keeps a set of active things and logs each entry and each exit. The
set is kept in the order of entry; entering an active thing again changes nothing.

* `replay` computes the active set from the log.
* `LastEntered log a`: the last entry of `a` in the log is not followed by an exit of
  `a`. `mem_replay` shows that these are exactly the members of the replayed set.
* `Alternates log`: nothing is entered while it is active. Then between two entries of
  one thing there is an exit of it (`Alternates.exit_between`).
* `Proper log`: moreover nothing is left while it is not active. A log that first leaves
  and then enters some things goes on properly under the conditions of
  `Proper.leave_enter`.
-/

set_option autoImplicit false

namespace EnterExit

/-- An entry or an exit. -/
inductive Mark (α : Type) where
  | enter (a : α)
  | exit (a : α)
deriving DecidableEq

variable {α : Type} [DecidableEq α]

/-- The effect of one mark on the active set. -/
def mark (active : List α) : Mark α → List α
  | .enter a => if a ∈ active then active else active ++ [a]
  | .exit a => active.erase a

/-- The active set after a log, from the active set `active`. -/
def replay (active : List α) (log : List (Mark α)) : List α := log.foldl mark active

@[simp] theorem replay_nil (active : List α) : replay active [] = active := rfl

@[simp] theorem replay_cons (active : List α) (m : Mark α) (log : List (Mark α)) :
    replay active (m :: log) = replay (mark active m) log := rfl

@[simp] theorem replay_append (active : List α) (log log' : List (Mark α)) :
    replay active (log ++ log') = replay (replay active log) log' := by
  simp [replay]

/-- Entering keeps the active set free of duplicates, and so does leaving. -/
theorem nodup_mark {active : List α} (h : active.Nodup) (m : Mark α) : (mark active m).Nodup := by
  cases m with
  | enter a =>
      by_cases ha : a ∈ active
      · simpa [mark, ha] using h
      · simpa [mark, ha] using h.append (List.nodup_singleton a) (by simpa using ha)
  | exit a => exact h.erase a

theorem nodup_replay {active : List α} (h : active.Nodup) (log : List (Mark α)) :
    (replay active log).Nodup := by
  induction log generalizing active with
  | nil => exact h
  | cons m log ih => exact ih (nodup_mark h m)

/-- Membership after one mark: `a` is active when it has just been entered, or when it
was active and has not just been left. -/
theorem mem_mark {active : List α} (h : active.Nodup) (m : Mark α) (a : α) :
    a ∈ mark active m ↔ m = .enter a ∨ (a ∈ active ∧ m ≠ .exit a) := by
  cases m with
  | enter b =>
      by_cases hb : b ∈ active
      · simp only [mark, hb, if_true, Mark.enter.injEq, ne_eq, reduceCtorEq, not_false_eq_true,
          and_true]
        constructor
        · exact Or.inr
        · rintro (rfl | ha)
          · exact hb
          · exact ha
      · simp only [mark, hb, if_false, List.mem_append, List.mem_singleton, Mark.enter.injEq,
          ne_eq, reduceCtorEq, not_false_eq_true, and_true]
        constructor
        · rintro (ha | rfl)
          · exact Or.inr ha
          · exact Or.inl rfl
        · rintro (rfl | ha)
          · exact Or.inr rfl
          · exact Or.inl ha
  | exit b =>
      simp only [mark, h.mem_erase_iff, reduceCtorEq, ne_eq, Mark.exit.injEq, false_or]
      constructor
      · exact fun ⟨hne, ha⟩ => ⟨ha, fun he => hne he.symm⟩
      · exact fun ⟨ha, hne⟩ => ⟨fun he => hne he.symm, ha⟩

/-- What is active and is not left stays active. -/
theorem mem_replay_of_no_exit {active : List α} (h : active.Nodup) {a : α} (ha : a ∈ active)
    {log : List (Mark α)} (hlog : .exit a ∉ log) : a ∈ replay active log := by
  induction log generalizing active with
  | nil => exact ha
  | cons m log ih =>
      rw [List.mem_cons, not_or] at hlog
      exact ih (nodup_mark h m) ((mem_mark h m a).mpr (Or.inr ⟨ha, Ne.symm hlog.1⟩)) hlog.2

/-- What is entered anew is active after what was active before. -/
theorem replay_enters {active enters : List α} (h : (active ++ enters).Nodup) :
    replay active (enters.map .enter) = active ++ enters := by
  induction enters generalizing active with
  | nil => simp
  | cons a enters ih =>
      have ha : a ∉ active := by
        intro ha
        exact (List.nodup_append.mp h).2.2 a ha a List.mem_cons_self rfl
      have hrest : (active ++ [a] ++ enters).Nodup := by
        rw [List.append_assoc]
        exact h
      rw [List.map_cons, replay_cons, mark, if_neg ha, ih hrest, List.append_assoc]
      rfl

/-- What was active first and is not left stays first. -/
theorem head?_replay {active : List α} {a : α} (ha : active.head? = some a) {log : List (Mark α)}
    (hlog : .exit a ∉ log) : (replay active log).head? = some a := by
  induction log generalizing active with
  | nil => exact ha
  | cons m log ih =>
      rw [List.mem_cons, not_or] at hlog
      refine ih ?_ hlog.2
      obtain ⟨rest, rfl⟩ : ∃ rest, active = a :: rest := List.head?_eq_some_iff.mp ha
      cases m with
      | enter b =>
          by_cases hb : b ∈ a :: rest
          · rw [mark, if_pos hb]
            rfl
          · rw [mark, if_neg hb]
            rfl
      | exit b =>
          have hne : ¬ (a == b) = true := by
            intro heq
            exact hlog.1 (by rw [eq_of_beq heq])
          rw [mark, List.erase_cons_tail hne]
          rfl

/-- The last entry of `a` in the log is not followed by an exit of `a`. -/
def LastEntered (log : List (Mark α)) (a : α) : Prop :=
  ∃ pre post, log = pre ++ .enter a :: post ∧ .exit a ∉ post

/-- The replayed set holds exactly the things whose last entry is not followed by an
exit. -/
theorem mem_replay (log : List (Mark α)) (a : α) : a ∈ replay [] log ↔ LastEntered log a := by
  constructor
  · -- Induction from the end of the log: the last mark decides, or it does not touch `a`.
    induction log using List.reverseRecOn with
    | nil => intro h; simp at h
    | append_singleton log m ih =>
        intro h
        rw [replay_append, replay_cons, replay_nil,
          mem_mark (nodup_replay List.nodup_nil log)] at h
        rcases h with rfl | ⟨h, hne⟩
        · exact ⟨log, [], rfl, by simp⟩
        · obtain ⟨pre, post, rfl, hpost⟩ := ih h
          refine ⟨pre, post ++ [m], by simp, ?_⟩
          simp only [List.mem_append, List.mem_singleton, not_or]
          exact ⟨hpost, Ne.symm hne⟩
  · rintro ⟨pre, post, rfl, hpost⟩
    have hpre : (replay [] pre).Nodup := nodup_replay List.nodup_nil pre
    rw [replay_append, replay_cons]
    exact mem_replay_of_no_exit (nodup_mark hpre _)
      ((mem_mark hpre _ a).mpr (Or.inl rfl)) hpost

/-- Nothing is entered while it is active. -/
def Alternates (log : List (Mark α)) : Prop :=
  ∀ pre a post, log = pre ++ .enter a :: post → a ∉ replay [] pre

theorem alternates_nil : Alternates ([] : List (Mark α)) := by
  intro pre a post h
  simp at h

/-- One more mark keeps the alternation, when it does not enter an active thing. -/
theorem Alternates.snoc {log : List (Mark α)} (h : Alternates log) {m : Mark α}
    (hm : ∀ a, m = .enter a → a ∉ replay [] log) : Alternates (log ++ [m]) := by
  intro pre a post heq
  rcases List.eq_nil_or_concat' post with rfl | ⟨post', last, rfl⟩
  · obtain ⟨rfl, hme⟩ := List.append_inj' heq rfl
    exact hm a (by simpa using hme)
  · rw [← List.cons_append, ← List.append_assoc] at heq
    exact h pre a post' (List.append_inj' heq rfl).1

/-- Between two entries of one thing there is an exit of it. -/
theorem Alternates.exit_between {log : List (Mark α)} (h : Alternates log)
    {pre mid post : List (Mark α)} {a : α}
    (heq : log = pre ++ .enter a :: mid ++ .enter a :: post) : .exit a ∈ mid := by
  by_contra hmid
  refine h (pre ++ .enter a :: mid) a post heq ?_
  exact (mem_replay _ a).mpr ⟨pre, mid, rfl, hmid⟩

/-! ### Proper logs -/

/-- An entry of something inactive, or an exit of something active. -/
def ProperMark (active : List α) : Mark α → Prop
  | .enter a => a ∉ active
  | .exit a => a ∈ active

/-- Every mark of the log is proper where it stands. -/
def Proper (log : List (Mark α)) : Prop :=
  ∀ pre m post, log = pre ++ m :: post → ProperMark (replay [] pre) m

theorem proper_nil : Proper ([] : List (Mark α)) := by
  intro pre m post h
  simp at h

/-- A first part of a proper log is proper. -/
theorem Proper.of_append {log log' : List (Mark α)} (h : Proper (log ++ log')) : Proper log := by
  intro pre m post heq
  exact h pre m (post ++ log') (by rw [heq]; simp)

/-- One more mark. -/
theorem Proper.snoc {log : List (Mark α)} (h : Proper log) {m : Mark α}
    (hm : ProperMark (replay [] log) m) : Proper (log ++ [m]) := by
  intro pre m' post heq
  rcases List.eq_nil_or_concat' post with rfl | ⟨post', last, rfl⟩
  · obtain ⟨rfl, hlast⟩ := List.append_inj' heq rfl
    exact (List.cons.inj hlast).1 ▸ hm
  · rw [← List.cons_append, ← List.append_assoc] at heq
    exact h pre m' post' (List.append_inj' heq rfl).1

/-- The marks of leaving some things and then entering others. -/
def leaveEnter (exits enters : List α) : List (Mark α) := exits.map .exit ++ enters.map .enter

theorem mem_replay_exits {active : List α} (h : active.Nodup) (exits : List α) (a : α) :
    a ∈ replay active (exits.map .exit) ↔ a ∈ active ∧ a ∉ exits := by
  induction exits generalizing active with
  | nil => simp
  | cons e exits ih =>
      rw [List.map_cons, replay_cons, ih (nodup_mark h _), mem_mark h]
      simp only [reduceCtorEq, false_or, ne_eq, Mark.exit.injEq, List.mem_cons, not_or]
      tauto

theorem mem_replay_enters {active : List α} (h : active.Nodup) (enters : List α) (a : α) :
    a ∈ replay active (enters.map .enter) ↔ a ∈ enters ∨ a ∈ active := by
  induction enters generalizing active with
  | nil => simp
  | cons e enters ih =>
      rw [List.map_cons, replay_cons, ih (nodup_mark h _), mem_mark h]
      simp only [Mark.enter.injEq, ne_eq, reduceCtorEq, not_false_eq_true, and_true, List.mem_cons]
      tauto

/-- What is active after leaving and entering. -/
theorem mem_replay_leaveEnter {active : List α} (h : active.Nodup) (exits enters : List α) (a : α) :
    a ∈ replay active (leaveEnter exits enters) ↔ a ∈ enters ∨ (a ∈ active ∧ a ∉ exits) := by
  rw [leaveEnter, replay_append, mem_replay_enters (nodup_replay h _), mem_replay_exits h]

theorem Proper.exits {log : List (Mark α)} (h : Proper log) {exits : List α} (hnodup : exits.Nodup)
    (hactive : ∀ a ∈ exits, a ∈ replay [] log) : Proper (log ++ exits.map .exit) := by
  induction exits using List.reverseRecOn with
  | nil => simpa using h
  | append_singleton exits e ih =>
      have ⟨hexits, _, hdisjoint⟩ := List.nodup_append.mp hnodup
      have hrest := ih hexits fun a ha => hactive a (List.mem_append_left _ ha)
      rw [List.map_append, List.map_singleton, ← List.append_assoc]
      refine hrest.snoc ?_
      show e ∈ replay [] (log ++ exits.map .exit)
      rw [replay_append, mem_replay_exits (nodup_replay List.nodup_nil log)]
      refine ⟨hactive e (by simp), fun he => ?_⟩
      exact hdisjoint e he e (List.mem_singleton_self e) rfl

theorem Proper.enters {log : List (Mark α)} (h : Proper log) {enters : List α}
    (hnodup : enters.Nodup) (hinactive : ∀ a ∈ enters, a ∉ replay [] log) :
    Proper (log ++ enters.map .enter) := by
  induction enters using List.reverseRecOn with
  | nil => simpa using h
  | append_singleton enters e ih =>
      have ⟨henters, _, hdisjoint⟩ := List.nodup_append.mp hnodup
      have hrest := ih henters fun a ha => hinactive a (List.mem_append_left _ ha)
      rw [List.map_append, List.map_singleton, ← List.append_assoc]
      refine hrest.snoc ?_
      show e ∉ replay [] (log ++ enters.map .enter)
      rw [replay_append, mem_replay_enters (nodup_replay List.nodup_nil log)]
      rintro (he | he)
      · exact hdisjoint e he e (List.mem_singleton_self e) rfl
      · exact hinactive e (by simp) he

/-- Distinct things that are active are left, and distinct things are entered that are
inactive then. -/
theorem Proper.leave_enter {log : List (Mark α)} (h : Proper log) {exits enters : List α}
    (hexits : exits.Nodup) (henters : enters.Nodup) (hactive : ∀ a ∈ exits, a ∈ replay [] log)
    (hinactive : ∀ a ∈ enters, a ∈ replay [] log → a ∈ exits) :
    Proper (log ++ leaveEnter exits enters) := by
  rw [leaveEnter, ← List.append_assoc]
  refine (h.exits hexits hactive).enters henters fun a ha hmem => ?_
  rw [replay_append, mem_replay_exits (nodup_replay List.nodup_nil log)] at hmem
  exact hmem.2 (hinactive a ha hmem.1)

end EnterExit
