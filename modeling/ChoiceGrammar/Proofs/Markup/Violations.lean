import ChoiceGrammar.Proofs.Markup.Descent
import Mathlib.Order.Nat

/-!
# The first violation

A text is scanned from left to right with the offsets of the groups that are open on a stack. Three
things can go wrong: a bar or closing bracket where no group is open, an opening bracket where the
limit is reached, and the end of the text where a group is open. The reader reports the first of
them, and reads the text if there is none.
-/

namespace ChoiceGrammar.Markup

/-- The stack of offsets behind one more character. -/
def reopened (opened : List Nat) : Char × Nat → List Nat
  | ('<', offset) => offset :: opened
  | ('>', _) => opened.tail
  | _ => opened

/-- The offsets of the groups that are open at the end of a text, innermost first. -/
def openOffsets (text : List Char) : List Nat := text.zipIdx.foldl reopened []

/-- What goes wrong at an offset of a text, whatever stands before or after it. -/
inductive Violation (limit : Nat) (text : List Char) (p : Nat) : Fault → Prop where
  | stray {c : Char} (hc : text[p]? = some c) (hd : c = '|' ∨ c = '>')
      (ho : openOffsets (text.take p) = []) : Violation limit text p (.trailingInput p c)
  | deep (hc : text[p]? = some '<') (ho : (openOffsets (text.take p)).length = limit) :
      Violation limit text p (.tooDeep p limit)
  | unclosed {top : Nat} {opened : List Nat} (hp : p = text.length)
      (ho : openOffsets text = top :: opened) : Violation limit text p (.unterminated top)

/-- The fault is the first violation from an offset on. -/
def FirstViolation (limit : Nat) (text : List Char) (start : Nat) (fault : Fault) : Prop :=
  ∃ p, start ≤ p ∧ Violation limit text p fault ∧
    ∀ q, start ≤ q → q < p → ∀ earlier, ¬ Violation limit text q earlier

theorem openOffsets_append_singleton (text : List Char) (c : Char) :
    openOffsets (text ++ [c]) = reopened (openOffsets text) (c, text.length) := by
  simp [openOffsets, List.zipIdx_append]

theorem reopened_literal {c : Char} (h : isDelimiter c = false) (opened : List Nat)
    (offset : Nat) : reopened opened (c, offset) = opened := by
  simp only [isDelimiter, Bool.or_eq_false_iff, beq_eq_false_iff_ne] at h
  unfold reopened
  split
  · next heq => exact absurd (Prod.mk.inj heq).1 h.1.1
  · next heq => exact absurd (Prod.mk.inj heq).1 h.2
  · rfl

variable {limit : Nat} {text : List Char} {start : Nat} {fault other : Fault}

theorem firstViolation_succ (h : ∀ other, ¬ Violation limit text start other) :
    FirstViolation limit text start fault ↔ FirstViolation limit text (start + 1) fault := by
  constructor
  · rintro ⟨p, hle, hfault, hearlier⟩
    have hne : p ≠ start := by
      rintro rfl
      exact h fault hfault
    refine ⟨p, by omega, hfault, ?_⟩
    intro q hq hqp
    exact hearlier q (by omega) hqp
  · rintro ⟨p, hle, hfault, hearlier⟩
    refine ⟨p, by omega, hfault, ?_⟩
    intro q hq hqp
    by_cases hstart : q = start
    · rw [hstart]
      exact h
    · exact hearlier q (by omega) hqp

theorem firstViolation_here (h : Violation limit text start other) :
    FirstViolation limit text start fault ↔ Violation limit text start fault := by
  constructor
  · rintro ⟨p, hle, hfault, hearlier⟩
    by_cases hp : p = start
    · rwa [hp] at hfault
    · exact absurd h (hearlier start (Nat.le_refl start) (by omega) other)
  · intro hfault
    exact ⟨start, Nat.le_refl start, hfault, fun q hq hqs => absurd hqs (by omega)⟩

theorem firstViolation_length :
    FirstViolation limit text text.length fault ↔ Violation limit text text.length fault := by
  constructor
  · rintro ⟨p, hle, hfault, -⟩
    have hp : p = text.length := by
      cases hfault with
      | stray hc => simp [List.getElem?_eq_none hle] at hc
      | deep hc => simp [List.getElem?_eq_none hle] at hc
      | unclosed hp => exact hp
    rwa [hp] at hfault
  · intro hfault
    exact firstViolation_here hfault |>.mpr hfault

theorem exists_firstViolation {p : Nat} (h : Violation limit text p fault) :
    ∃ first, FirstViolation limit text 0 first := by
  classical
  have hexists : ∃ p fault, Violation limit text p fault := ⟨p, fault, h⟩
  obtain ⟨first, hfirst⟩ := Nat.find_spec hexists
  refine ⟨first, Nat.find hexists, Nat.zero_le _, hfirst, ?_⟩
  intro q _ hq earlier hearlier
  exact Nat.find_min hexists hq ⟨earlier, hearlier⟩

namespace Progress

variable {p q : Progress} {before : List Char} {c : Char}

/-- The reader has read this text, and its open groups are those of the scan. -/
structure Tracks (limit : Nat) (p : Progress) (before : List Char) : Prop where
  position_eq : p.position = before.length
  opened_eq : p.stack.map OpenGroup.openedAt = openOffsets before
  length_le : p.stack.length ≤ limit

theorem tracks_start (limit : Nat) : Progress.start.Tracks limit [] :=
  ⟨rfl, rfl, Nat.zero_le limit⟩

/-- What a character can be refused for. -/
theorem step_eq_error_iff :
    p.step limit c = .error fault ↔
      (c = '|' ∨ c = '>') ∧ p.stack = [] ∧ fault = .trailingInput p.position c ∨
        c = '<' ∧ limit ≤ p.stack.length ∧ fault = .tooDeep p.position limit := by
  by_cases hc : isDelimiter c = true
  · simp only [isDelimiter, Bool.or_eq_true, beq_iff_eq] at hc
    rcases hc with (rfl | rfl) | rfl
    · by_cases hlimit : limit ≤ p.stack.length
      · simp [step, hlimit, eq_comm]
      · simp [step, hlimit]
    · cases hs : p.stack with
      | nil => simp [step, hs, eq_comm]
      | cons g stack => simp [step, hs]
    · cases hs : p.stack with
      | nil => simp [step, hs, eq_comm]
      | cons g stack => simp [step, hs]
  · rw [Bool.not_eq_true] at hc
    have hliteral := step_literal limit p hc
    simp only [isDelimiter, Bool.or_eq_false_iff, beq_eq_false_iff_ne] at hc
    simp [hliteral, hc]

theorem Tracks.violation_iff (h : p.Tracks limit before) (rest : List Char) :
    Violation limit (before ++ c :: rest) before.length fault ↔ p.step limit c = .error fault := by
  obtain ⟨hposition, hopened, hle⟩ := h
  have hlength : (openOffsets before).length = p.stack.length := by
    rw [← hopened, List.length_map]
  have hnil : openOffsets before = [] ↔ p.stack = [] := by
    rw [← hopened, List.map_eq_nil_iff]
  have hhere : (before ++ c :: rest)[before.length]? = some c := by simp
  have hbefore : (before ++ c :: rest).take before.length = before := List.take_left
  rw [step_eq_error_iff, hposition]
  constructor
  · intro hviolation
    cases hviolation with
    | stray hc hd ho =>
        rw [hhere] at hc
        obtain rfl := Option.some.inj hc
        rw [hbefore, hnil] at ho
        exact .inl ⟨hd, ho, rfl⟩
    | deep hc ho =>
        rw [hhere] at hc
        rw [hbefore, hlength] at ho
        exact .inr ⟨Option.some.inj hc, Nat.le_of_eq ho.symm, rfl⟩
    | unclosed hp => simp at hp
  · rintro (⟨hd, hs, rfl⟩ | ⟨rfl, hlimit, rfl⟩)
    · refine .stray hhere hd ?_
      rw [hbefore, hnil]
      exact hs
    · refine .deep hhere ?_
      rw [hbefore, hlength]
      exact Nat.le_antisymm hle hlimit

theorem Tracks.step (h : p.Tracks limit before) (hstep : p.step limit c = .ok q) :
    q.Tracks limit (before ++ [c]) := by
  obtain ⟨hposition, hopened, hle⟩ := h
  have hopened' := openOffsets_append_singleton before c
  rw [← hopened, ← hposition] at hopened'
  cases step_cases hstep with
  | opening hlt => exact ⟨by simp [hposition], by rw [hopened']; rfl, hlt⟩
  | bar hs =>
      rw [hs] at hopened' hle
      exact ⟨by simp [hposition], by rw [hopened']; rfl, hle⟩
  | closing hs =>
      rw [hs] at hopened' hle
      exact ⟨by simp [hposition], by rw [hopened']; rfl, Nat.le_of_succ_le hle⟩
  | literal hc =>
      rw [reopened_literal hc] at hopened'
      exact ⟨by simp [hposition], hopened'.symm, hle⟩

theorem Tracks.finish_error_iff (h : p.Tracks limit before) :
    p.finish = .error fault ↔ Violation limit before before.length fault := by
  have hopened := h.opened_eq
  constructor
  · intro hfinish
    unfold finish at hfinish
    split at hfinish
    · simp at hfinish
    · next hs =>
        cases hfinish
        rw [hs] at hopened
        exact .unclosed rfl hopened.symm
  · intro hviolation
    cases hviolation with
    | stray hc => simp at hc
    | deep hc => simp at hc
    | unclosed _ ho =>
        rw [ho, List.map_eq_cons_iff] at hopened
        obtain ⟨g, stack, hs, rfl, -⟩ := hopened
        simp [finish, hs]

theorem Tracks.run_error_iff {rest : List Char} (h : p.Tracks limit before) :
    p.run limit rest = .error fault ↔
      FirstViolation limit (before ++ rest) before.length fault := by
  induction rest generalizing p before with
  | nil => rw [List.append_nil, firstViolation_length, ← h.finish_error_iff, run]
  | cons c cs ih =>
      cases hstep : p.step limit c with
      | error found =>
          have hhere := (h.violation_iff cs).mpr hstep
          rw [firstViolation_here hhere, h.violation_iff]
          simp [run, hstep]
      | ok q =>
          have hnone : ∀ other, ¬ Violation limit (before ++ c :: cs) before.length other := by
            intro other hother
            rw [h.violation_iff, hstep] at hother
            simp at hother
          have hrest := ih (h.step hstep)
          rw [List.append_assoc, List.singleton_append, List.length_append,
            List.length_singleton] at hrest
          rw [firstViolation_succ hnone, ← hrest, run, hstep]

end Progress

theorem read_error_iff : read limit text = .error fault ↔ FirstViolation limit text 0 fault :=
  (Progress.tracks_start limit).run_error_iff

/-- An expression is refused for the first violation that a scan of its text meets, and for no other
reason. Where the scan meets none it is parsed. Reading by descent comes to the same. -/
theorem parseWithin_first_violation (limit : Nat) (text : String) :
    (∀ fault, Expr.parseWithin limit text = .error fault ↔
        ∃ p, Violation limit text.toList p fault ∧
          ∀ q < p, ∀ earlier, ¬ Violation limit text.toList q earlier) ∧
      ((∃ e, Expr.parseWithin limit text = .ok e) ↔
        ∀ p fault, ¬ Violation limit text.toList p fault) ∧
      descend limit text.toList = (Expr.parseWithin limit text).mapError .markup := by
  have hread (fault : Fault) : Expr.parseWithin limit text = .error fault ↔
      FirstViolation limit text.toList 0 fault := read_error_iff
  refine ⟨?_, ⟨?_, ?_⟩, descend_eq limit text.toList⟩
  · intro fault
    rw [hread fault]
    simp [FirstViolation]
  · rintro ⟨e, he⟩ p fault hviolation
    obtain ⟨first, hfirst⟩ := exists_firstViolation hviolation
    rw [← hread first, he] at hfirst
    simp at hfirst
  · intro hnone
    cases hparse : Expr.parseWithin limit text with
    | ok e => exact ⟨e, rfl⟩
    | error fault =>
        obtain ⟨p, -, hfault, -⟩ := (hread fault).mp hparse
        exact absurd hfault (hnone p fault)

/-- The group that is too deep comes before the end that leaves both groups open. -/
example : Expr.parseWithin 1 "<a|<b" = .error (.tooDeep 3 1) := by decide

end ChoiceGrammar.Markup
