import Mathlib.Data.List.Infix

/-!
# `Stabl.Lib.MaximalMunch`: scanners that take the longest match

A scanner cuts a text into lexemes. At each place it takes the longest nonempty prefix that some
rule matches, and the first rule that matches it. `rule` says what the first rule for a lexeme is,
and it may depend on the state of the scanner. The action of the rule can emit a token and change
the state, or stop with an error.

* `IsLexeme` says what the next lexeme is, and `munch` finds it (`munch_eq_some_iff`).
* `Reads v s u ts s'`: before the text `v`, the scanner reads `u` as whole lexemes.
* `lex_of_reads`: after `u` the scanner goes on with `v`.
* `Reads.replace`: the text behind `u` does not matter, as long as no lexeme reaches into it.
-/

set_option autoImplicit false

namespace MaximalMunch

variable {α ρ : Type}

/-! ### The next lexeme -/

section
variable (rule : List α → Option ρ)

/-- The lexeme `x` is the longest match at the beginning of `x ++ rest`, and its rule is `r`. -/
structure IsLexeme (r : ρ) (x rest : List α) : Prop where
  nonempty : x ≠ []
  matched : rule x = some r
  longest : ∀ y, y ≠ [] → y <+: rest → rule (x ++ y) = none

/-- The longest match among the prefixes of at most `n` letters. -/
def munchUpTo (text : List α) : Nat → Option (ρ × List α × List α)
  | 0 => none
  | n + 1 =>
    match rule (text.take (n + 1)) with
    | some r => some (r, text.take (n + 1), text.drop (n + 1))
    | none => munchUpTo text n

/-- The rule of the next lexeme, the lexeme and the rest of the text. -/
def munch (text : List α) : Option (ρ × List α × List α) := munchUpTo rule text text.length

end

section
variable {rule : List α → Option ρ} {r : ρ} {x rest text : List α}

theorem munchUpTo_eq_some {n : Nat} (hn : n ≤ text.length)
    (h : munchUpTo rule text n = some (r, x, rest)) :
    text = x ++ rest ∧ x ≠ [] ∧ rule x = some r ∧
      ∀ m, x.length < m → m ≤ n → rule (text.take m) = none := by
  induction n with
  | zero => cases h
  | succ n ih =>
      rw [munchUpTo] at h
      split at h
      · rename_i r' hr
        obtain ⟨rfl, rfl, rfl⟩ : r' = r ∧ text.take (n + 1) = x ∧ text.drop (n + 1) = rest := by
          simpa using h
        refine ⟨(List.take_append_drop _ _).symm, ?_, hr, fun m hm hmn => ?_⟩
        -- A prefix of `n + 1` letters of a text with that many is not empty.
        · intro hnil
          have hlength := congrArg List.length hnil
          rw [List.length_take_of_le hn] at hlength
          cases hlength
        · rw [List.length_take_of_le hn] at hm
          omega
      · rename_i hnone
        have ⟨htext, hx, hr, hlongest⟩ := ih (by omega) h
        refine ⟨htext, hx, hr, fun m hm hmn => ?_⟩
        rcases Nat.lt_or_eq_of_le hmn with hlt | rfl
        · exact hlongest m hm (by omega)
        · exact hnone

/-- A match that is the longest one is found. -/
theorem munchUpTo_of_longest {n : Nat} (hlength : x.length ≤ n) (hx : x ≠ [])
    (hr : rule x = some r) (htext : text = x ++ rest) (hn : n ≤ text.length)
    (hlongest : ∀ m, x.length < m → m ≤ n → rule (text.take m) = none) :
    munchUpTo rule text n = some (r, x, rest) := by
  induction n with
  | zero => exact absurd (List.length_eq_zero_iff.mp (Nat.le_zero.mp hlength)) hx
  | succ n ih =>
      rw [munchUpTo]
      rcases Nat.lt_or_eq_of_le hlength with hlt | heq
      · rw [hlongest (n + 1) hlt (Nat.le_refl _)]
        exact ih (by omega) (by omega) fun m hm hmn => hlongest m hm (by omega)
      · have htake : text.take (n + 1) = x := by rw [htext, ← heq, List.take_left]
        have hdrop : text.drop (n + 1) = rest := by rw [htext, ← heq, List.drop_left]
        rw [htake, hdrop, hr]

theorem munch_eq_some_iff :
    munch rule text = some (r, x, rest) ↔ text = x ++ rest ∧ IsLexeme rule r x rest := by
  constructor
  · intro h
    obtain ⟨rfl, hx, hr, hlongest⟩ := munchUpTo_eq_some (Nat.le_refl _) h
    refine ⟨rfl, hx, hr, fun y hy hprefix => ?_⟩
    have hlength : 0 < y.length := List.length_pos_iff.mpr hy
    have htake := hlongest (x.length + y.length) (by omega)
      (by rw [List.length_append]; exact Nat.add_le_add_left hprefix.length_le _)
    rwa [List.take_length_add_append, ← List.prefix_iff_eq_take.mp hprefix] at htake
  · rintro ⟨rfl, hlexeme⟩
    refine munchUpTo_of_longest (by simp) hlexeme.nonempty hlexeme.matched rfl (Nat.le_refl _) ?_
    intro m hm hmn
    obtain ⟨k, rfl⟩ := Nat.exists_eq_add_of_lt hm
    rw [List.length_append] at hmn
    -- A prefix that is longer than `x` is `x` with a prefix of the rest behind it.
    rw [Nat.add_assoc, List.take_length_add_append]
    refine hlexeme.longest _ ?_ (List.take_prefix _ _)
    intro hnil
    have hlength := congrArg List.length hnil
    rw [List.length_take_of_le (by omega)] at hlength
    cases hlength

end

/-! ### Scanners -/

/-- A scanner with states `σ`, tokens `τ` and errors `ε`. -/
structure Scanner (α ρ σ τ ε : Type) where
  rule : σ → List α → Option ρ
  act : σ → ρ → List α → Except ε (Option τ × σ)
  noMatch : ε

variable {σ τ ε : Type}

namespace Scanner

variable (S : Scanner α ρ σ τ ε)

/-- The tokens of a text, and the error that the scanner stops with before the end of the text.
Each round takes at least one letter. -/
def scan : Nat → σ → List α → List τ × Option ε
  | _, _, [] => ([], none)
  | 0, _, _ :: _ => ([], some S.noMatch)
  | n + 1, s, a :: text =>
    match munch (S.rule s) (a :: text) with
    | none => ([], some S.noMatch)
    | some (r, x, rest) =>
      match S.act s r x with
      | .error e => ([], some e)
      | .ok (t, s') =>
        let (ts, e) := scan n s' rest
        (t.toList ++ ts, e)

/-- The tokens of a text, read from a state on. -/
def lex (s : σ) (text : List α) : List τ × Option ε := S.scan text.length s text

@[simp] theorem lex_nil (s : σ) : S.lex s [] = ([], none) := by
  rw [lex, scan]

/-- More rounds than there are letters do not matter. -/
theorem scan_eq_lex {n : Nat} {text : List α} (hn : text.length ≤ n) (s : σ) :
    S.scan n s text = S.lex s text := by
  have hrounds : ∀ (m n : Nat) (s : σ) (text : List α), text.length ≤ m → text.length ≤ n →
      S.scan m s text = S.scan n s text := by
    intro m
    induction m with
    | zero =>
        intro n s text hm _
        obtain rfl := List.length_eq_zero_iff.mp (Nat.le_zero.mp hm)
        rw [scan, scan]
    | succ m ih =>
        intro n s text hm hn
        cases text with
        | nil => rw [scan, scan]
        | cons a text =>
            cases n with
            | zero => cases hn
            | succ n =>
                rw [scan, scan]
                cases hmunch : munch (S.rule s) (a :: text) with
                | none => rfl
                | some result =>
                    obtain ⟨r, x, rest⟩ := result
                    have ⟨htext, hlexeme⟩ := munch_eq_some_iff.mp hmunch
                    -- A lexeme is not empty, so the rest is shorter and fewer rounds are
                    -- enough for it.
                    have hpos := List.length_pos_iff.mpr hlexeme.nonempty
                    have hlength := congrArg List.length htext
                    rw [List.length_append] at hlength
                    rw [List.length_cons] at hm hn hlength
                    have hrest : ∀ s', S.scan m s' rest = S.scan n s' rest := fun s' =>
                      ih n s' rest (by omega) (by omega)
                    simp only [hrest]
  exact hrounds n text.length s text hn (Nat.le_refl _)

variable {S}

/-- The scanner reads the next lexeme and goes on. -/
theorem lex_lexeme {s : σ} {r : ρ} {x rest : List α} (h : IsLexeme (S.rule s) r x rest) :
    S.lex s (x ++ rest) =
      match S.act s r x with
      | .error e => ([], some e)
      | .ok (t, s') => (t.toList ++ (S.lex s' rest).1, (S.lex s' rest).2) := by
  cases x with
  | nil => exact absurd rfl h.nonempty
  | cons a x =>
      have hmunch : munch (S.rule s) (a :: x ++ rest) = some (r, a :: x, rest) :=
        munch_eq_some_iff.mpr ⟨rfl, h⟩
      have hrest : ∀ s', S.scan (x ++ rest).length s' rest = S.lex s' rest :=
        S.scan_eq_lex (by simp)
      rw [List.cons_append] at hmunch
      rw [lex, List.cons_append, List.length_cons, scan, hmunch]
      dsimp only
      cases S.act s r (a :: x) with
      | error e => rfl
      | ok result => simp only [hrest]

/-- What holds of the token of every lexeme holds of the tokens of a text. -/
theorem forall_mem_lex {Q : τ → Prop} (hact : ∀ s r x t s', S.rule s x = some r →
    S.act s r x = .ok (some t, s') → Q t) (s : σ) (text : List α) :
    ∀ t ∈ (S.lex s text).1, Q t := by
  have hscan : ∀ (n : Nat) (s : σ) (text : List α), ∀ t ∈ (S.scan n s text).1, Q t := by
    intro n
    induction n with
    | zero => intro s text t ht; cases text <;> cases ht
    | succ n ih =>
        intro s text t ht
        cases text with
        | nil => cases ht
        | cons a text =>
            rw [scan] at ht
            cases hmunch : munch (S.rule s) (a :: text) with
            | none =>
                rw [hmunch] at ht
                cases ht
            | some result =>
                obtain ⟨r, x, rest⟩ := result
                obtain ⟨_, hlexeme⟩ := munch_eq_some_iff.mp hmunch
                rw [hmunch] at ht
                dsimp only at ht
                cases hresult : S.act s r x with
                | error e =>
                    rw [hresult] at ht
                    cases ht
                | ok result =>
                    obtain ⟨t', s'⟩ := result
                    rw [hresult] at ht
                    rcases List.mem_append.mp ht with ht | ht
                    · obtain rfl := Option.mem_toList.mp ht
                      exact hact s r x t s' hlexeme.matched hresult
                    · exact ih s' rest t ht
  exact hscan text.length s text

variable (S)

/-- Before the text `v`, the scanner in the state `s` reads `u` as whole lexemes, emits the tokens
`ts` and gets to the state `s'`. -/
inductive Reads (v : List α) : σ → List α → List τ → σ → Prop where
  | nil {s : σ} : Reads v s [] [] s
  | cons {s s' s'' : σ} {r : ρ} {x u : List α} {t : Option τ} {ts : List τ}
    (hlexeme : IsLexeme (S.rule s) r x (u ++ v)) (hact : S.act s r x = .ok (t, s'))
    (h : Reads v s' u ts s'') : Reads v s (x ++ u) (t.toList ++ ts) s''

variable {S}

/-- After what it has read, the scanner goes on with the text behind. -/
theorem lex_of_reads {v u : List α} {s s' : σ} {ts : List τ} (h : S.Reads v s u ts s') :
    S.lex s (u ++ v) = (ts ++ (S.lex s' v).1, (S.lex s' v).2) := by
  induction h with
  | nil => rfl
  | cons hlexeme hact _ ih =>
      rw [List.append_assoc, lex_lexeme hlexeme, hact]
      simp only [ih, List.append_assoc]

/-- One lexeme. -/
theorem Reads.lexeme {v x : List α} {s s' : σ} {r : ρ} {t : Option τ}
    (hlexeme : IsLexeme (S.rule s) r x v) (hact : S.act s r x = .ok (t, s')) :
    S.Reads v s x t.toList s' := by
  have h := Reads.cons (S := S) (u := []) hlexeme hact .nil
  rwa [List.append_nil, List.append_nil] at h

theorem Reads.append {v u u' : List α} {s s' s'' : σ} {ts ts' : List τ}
    (h : S.Reads (u' ++ v) s u ts s') (h' : S.Reads v s' u' ts' s'') :
    S.Reads v s (u ++ u') (ts ++ ts') s'' := by
  induction h with
  | nil => exact h'
  | cons hlexeme hact _ ih =>
      rw [List.append_assoc, List.append_assoc]
      exact .cons (by rwa [List.append_assoc]) hact (ih h')

/-- What is read first is a lexeme. -/
theorem Reads.first {v w : List α} {s s' : σ} {ts : List τ} (h : S.Reads v s w ts s')
    (hw : w ≠ []) :
    ∃ r x u t s₁ ts', w = x ++ u ∧ ts = t.toList ++ ts' ∧ IsLexeme (S.rule s) r x (u ++ v) ∧
      S.act s r x = .ok (t, s₁) ∧ S.Reads v s₁ u ts' s' := by
  cases h with
  | nil => exact absurd rfl hw
  | cons hlexeme hact h => exact ⟨_, _, _, _, _, _, rfl, rfl, hlexeme, hact, h⟩

/-- A text is read in one way only: what is left behind a part of it is read too. -/
theorem Reads.behind {v u u' : List α} {s s' s₁ : σ} {ts ts₁ : List τ}
    (h : S.Reads (u' ++ v) s u ts₁ s₁) (hall : S.Reads v s (u ++ u') ts s') :
    ∃ ts₂, ts = ts₁ ++ ts₂ ∧ S.Reads v s₁ u' ts₂ s' := by
  induction h generalizing ts with
  | nil => exact ⟨ts, rfl, hall⟩
  | @cons s s₂ s₁ r x u t ts₁ hx hact _ ih =>
      have hne : x ++ u ++ u' ≠ [] := by simp [hx.nonempty]
      obtain ⟨r', x', w, t', s₂', ts', htext, rfl, hx', hact', hrest⟩ := hall.first hne
      have hmunch := munch_eq_some_iff.mpr ⟨rfl, hx⟩
      have hmunch' := munch_eq_some_iff.mpr ⟨rfl, hx'⟩
      -- Both readings begin with the longest match of one text, so they begin with one lexeme.
      have htext' : x ++ (u ++ (u' ++ v)) = x' ++ (w ++ v) := by
        rw [← List.append_assoc x', ← htext]
        simp only [List.append_assoc]
      rw [htext', hmunch'] at hmunch
      obtain ⟨rfl, rfl, hw⟩ : r' = r ∧ x' = x ∧ w ++ v = u ++ (u' ++ v) := by
        simpa only [Option.some.injEq, Prod.mk.injEq] using hmunch
      obtain rfl : w = u ++ u' := by
        rw [← List.append_assoc] at hw
        exact List.append_cancel_right hw
      obtain ⟨rfl, rfl⟩ : t = t' ∧ s₂ = s₂' := by
        rw [hact'] at hact
        simpa only [Except.ok.injEq, Prod.mk.injEq, eq_comm] using hact
      obtain ⟨ts₂, rfl, hbehind⟩ := ih hrest
      exact ⟨ts₂, (List.append_assoc ..).symm, hbehind⟩

/-- Where the lexemes of a text stay lexemes before another text, the scanner reads the text in
the same way. -/
theorem Reads.replace {v v' u : List α} {s s' : σ} {ts : List τ} (h : S.Reads v s u ts s')
    (hlexeme : ∀ p s₁ ts₁ r x u', u = p ++ (x ++ u') → S.Reads (x ++ u' ++ v) s p ts₁ s₁ →
      IsLexeme (S.rule s₁) r x (u' ++ v) → IsLexeme (S.rule s₁) r x (u' ++ v')) :
    S.Reads v' s u ts s' := by
  induction h with
  | nil => exact .nil
  | @cons s s₁ s₂ r x u t ts hx hact _ ih =>
      refine .cons (hlexeme [] s [] r x u rfl .nil hx) hact (ih ?_)
      intro p s₂ ts₂ r' x' u' hu hp hx'
      subst hu
      refine hlexeme (x ++ p) s₂ (t.toList ++ ts₂) r' x' u' (List.append_assoc ..).symm ?_ hx'
      refine .cons ?_ hact hp
      simpa only [List.append_assoc] using hx

end Scanner

/-- A lexeme stays one before another text, when no match reaches into that text. -/
theorem IsLexeme.replace {rule : List α → Option ρ} {r : ρ} {x u v v' : List α}
    (h : IsLexeme rule r x (u ++ v))
    (hno : ∀ y, y ≠ [] → y <+: v' → rule (x ++ (u ++ y)) = none) :
    IsLexeme rule r x (u ++ v') := by
  refine ⟨h.nonempty, h.matched, fun y hy hprefix => ?_⟩
  -- A longer match ends inside `u`, where the text is the same, or it reaches into `v'`.
  rcases List.prefix_or_prefix_of_prefix hprefix (List.prefix_append u v') with hu | ⟨y', rfl⟩
  · exact h.longest y hy (hu.trans (List.prefix_append u v))
  · by_cases hy' : y' = []
    · subst hy'
      rw [List.append_nil] at hy ⊢
      exact h.longest u hy (List.prefix_append u v)
    · exact hno y' hy' ((List.prefix_append_right_inj u).mp hprefix)

end MaximalMunch
