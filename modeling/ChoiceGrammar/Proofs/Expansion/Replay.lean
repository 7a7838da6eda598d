import ChoiceGrammar.Proofs.Expansion.Endless

/-!
# Expansions on the same words

What an expansion appends, and how many words it reads, is settled by the words that it reads: on
any stream that has these words somewhere, an expansion from there on does the same. How many
attempts a source allows makes no difference, as long as it does not give up too early.
-/

namespace ChoiceGrammar

/-- From `position'` on come the words that come from `position` on, as many as counted. -/
def SameWords (word word' : Nat → UInt64) (position position' count : Nat) : Prop :=
  ∀ i < count, word' (position' + i) = word (position + i)

namespace SameWords

variable {word word' : Nat → UInt64} {position position' m n : Nat}

theorem left (h : SameWords word word' position position' (m + n)) :
    SameWords word word' position position' m :=
  fun i hi => h i (Nat.lt_add_right n hi)

theorem right (h : SameWords word word' position position' (m + n)) :
    SameWords word word' (position + m) (position' + m) n := by
  intro i hi
  rw [Nat.add_assoc, Nat.add_assoc]
  exact h (m + i) (Nat.add_lt_add_left hi m)

end SameWords

namespace WordSource

/-- The source gives up on no draw that would end. -/
def Patient (source : WordSource) : Prop :=
  ∀ total position attempts, Draw.uniform source total position = none →
    Draw.uniformWithin source total attempts position = none

theorem patient_seeded (seed : UInt64) : (seeded seed).Patient := by
  intro total position attempts h
  exact ((Draw.uniform_seeded_eq_none_iff seed total position).mp h).uniformWithin_eq_none attempts

theorem patient_scripted (words : List UInt64) : (scripted words).Patient := by
  intro total position attempts h
  have hends := Draw.uniform_scripted_isSome words total position
  simp [h] at hends

/-- Another source has the words of this one again, and does not give up earlier. -/
structure Replays (source source' : WordSource) (position position' count : Nat) : Prop where
  enough : source.attempts ≤ source'.attempts ∨ source'.Patient
  words : SameWords source.word source'.word position position' count

namespace Replays

variable {source source' : WordSource} {position position' m n : Nat}

theorem left (h : source.Replays source' position position' (m + n)) :
    source.Replays source' position position' m := ⟨h.enough, h.words.left⟩

theorem right (h : source.Replays source' position position' (m + n)) :
    source.Replays source' (position + m) (position' + m) n := ⟨h.enough, h.words.right⟩

end Replays

end WordSource

namespace Draw

variable {source source' : WordSource} {total drawn : BitVec 128} {position position' after : Nat}

theorem pair_of_sameWords (h : SameWords source.word source'.word position position' 2) :
    source'.pair position' = source.pair position := by
  have hlow : source'.word position' = source.word position := h 0 (by decide)
  have hhigh : source'.word (position' + 1) = source.word (position + 1) := h 1 (by decide)
  rw [WordSource.pair, WordSource.pair, hlow, hhigh]

theorem uniformWithin_replay {attempts : Nat}
    (h : uniformWithin source total attempts position = some (drawn, after)) :
    ∃ count, after = position + count ∧ ∀ (source' : WordSource) (position' attempts' : Nat),
      attempts ≤ attempts' → SameWords source.word source'.word position position' count →
        uniformWithin source' total attempts' position' = some (drawn, position' + count) := by
  induction attempts generalizing position with
  | zero => simp [uniformWithin] at h
  | succ attempts ih =>
      rw [uniformWithin] at h
      by_cases haccepts : accepts total (source.pair position) = true
      · rw [if_pos haccepts] at h
        obtain ⟨rfl, rfl⟩ : scaled total (source.pair position) = drawn ∧ position + 2 = after := by
          simpa using h
        refine ⟨2, rfl, ?_⟩
        intro source' position' attempts' hle hwords
        obtain ⟨more, rfl⟩ := Nat.exists_eq_add_of_lt hle
        rw [uniformWithin, pair_of_sameWords hwords, if_pos haccepts]
      · rw [if_neg haccepts] at h
        obtain ⟨count, rfl, hagain⟩ := ih h
        refine ⟨2 + count, Nat.add_assoc position 2 count, ?_⟩
        intro source' position' attempts' hle hwords
        obtain ⟨more, rfl⟩ := Nat.exists_eq_add_of_lt hle
        rw [uniformWithin, pair_of_sameWords hwords.left, if_neg haccepts, ← Nat.add_assoc]
        exact hagain source' (position' + 2) _ (Nat.le_add_right attempts more) hwords.right

end Draw

/-- The computation gives the result wherever the words from `position` up to `after` come again,
and reads just them. -/
def Settles {α : Type} (source : WordSource) (position after : Nat)
    (compute : WordSource → StateT Nat Option α) (result : α) : Prop :=
  ∃ count, after = position + count ∧ ∀ source' position',
    source.Replays source' position position' count →
      (compute source').run position' = some (result, position' + count)

namespace Settles

variable {α β : Type} {source : WordSource} {position next after : Nat}

theorem pure (result : α) : Settles source position position (fun _ => Pure.pure result) result :=
  ⟨0, rfl, fun _ _ _ => rfl⟩

theorem bind {f : WordSource → StateT Nat Option α} {g : α → WordSource → StateT Nat Option β}
    {a : α} {b : β} (h : Settles source position next f a)
    (h' : Settles source next after (g a) b) :
    Settles source position after (fun source => f source >>= fun x => g x source) b := by
  obtain ⟨m, rfl, hfirst⟩ := h
  obtain ⟨n, rfl, hrest⟩ := h'
  refine ⟨m + n, Nat.add_assoc position m n, ?_⟩
  intro source' position' hagain
  have hthen := hrest source' (position' + m) hagain.right
  rw [StateT.run_bind, hfirst source' position' hagain.left]
  simpa [Nat.add_assoc] using hthen

theorem map {f : WordSource → StateT Nat Option α} {a : α} (h : Settles source position after f a)
    (k : α → β) :
    Settles source position after (fun source => f source >>= fun x => Pure.pure (k x)) (k a) :=
  h.bind (g := fun x _ => Pure.pure (k x)) (pure (k a))

theorem draw {total drawn : Weight}
    (h : Draw.uniform source total position = some (drawn, after)) :
    Settles source position after (fun source => Expr.sourceDraw source total) drawn := by
  obtain ⟨count, rfl, hagain⟩ := Draw.uniformWithin_replay h
  refine ⟨count, rfl, ?_⟩
  intro source' position' hreplays
  rw [Expr.run_sourceDraw]
  rcases hreplays.enough with hle | hpatient
  · exact hagain source' position' source'.attempts hle hreplays.words
  · -- the draw ends in some number of attempts, and so the source does not give up on it
    have hsome := hagain source' position' source.attempts (Nat.le_refl _) hreplays.words
    cases hdraw : Draw.uniform source' total position' with
    | none => simp [hpatient total position' source.attempts hdraw] at hsome
    | some given =>
        obtain ⟨drawn', after'⟩ := given
        obtain ⟨count', rfl, hgiven⟩ := Draw.uniformWithin_replay hdraw
        have hmore := hagain source' position' (source.attempts + source'.attempts)
          (Nat.le_add_right _ _) hreplays.words
        have hsame := hgiven source' position' (source.attempts + source'.attempts)
          (Nat.le_add_left _ _) (fun _ _ => rfl)
        exact hsame.symm.trans hmore

end Settles

namespace Expr

theorem settles_alt {source : WordSource} {first branch : Expr} {rest : List Expr} {drawn : Weight}
    {inner : Route} {position next after : Nat}
    (hdraw : Draw.uniform source (totalWeight (first :: rest)) position = some (drawn, next))
    (hbranch : (first :: rest)[selectIndex (first :: rest) drawn]? = some branch)
    (hinner : Settles source next after (fun source => branch.walk (sourceDraw source)) inner) :
    Settles source position after (fun source => (alt first rest).walk (sourceDraw source))
      (.choose (selectIndex (first :: rest) drawn) inner) := by
  simp only [walk_alt]
  refine (Settles.draw hdraw).bind (g := fun x source => do
    return Route.choose (selectIndex (first :: rest) x)
      (← walkNth (sourceDraw source) (first :: rest) (selectIndex (first :: rest) x))) ?_
  simp only [walkNth_eq _ hbranch]
  exact hinner.map _

/-- A walk that ends is settled by the words that it read. -/
theorem settles_walk {source : WordSource} {e : Expr} {position after : Nat} {route : Route}
    (h : (e.walk (sourceDraw source)).run position = some (route, after)) :
    Settles source position after (fun source => e.walk (sourceDraw source)) route := by
  refine walk_induct
    (P := fun e position route after =>
      Settles source position after (fun source => e.walk (sourceDraw source)) route)
    (Q := fun items position routes after =>
      Settles source position after (fun source => walkAll (sourceDraw source) items) routes)
    ?_ ?_ ?_ ?_ ?_ ?_ h
  · intro text position
    exact .pure Route.done
  · intro position
    exact .pure Route.done
  · intro items position routes after hitems
    exact hitems.map Route.each
  · intro position
    exact .pure []
  · intro item items position route next routes after hitem hitems
    exact hitem.bind (hitems.map (route :: ·))
  · intro first rest branch position drawn next inner after hdraw hbranch hinner
    exact settles_alt hdraw hbranch hinner

theorem expandOnto_replay {source : WordSource} {e : Expr} {out out' : Output}
    (h : e.expandOnto source out = some out') :
    ∃ text count, out' = ⟨out.text ++ text, out.position + count⟩ ∧
      ∀ (source' : WordSource) (prior : Output),
        source.Replays source' out.position prior.position count →
          e.expandOnto source' prior = some ⟨prior.text ++ text, prior.position + count⟩ := by
  rw [expandOnto_eq_walk, Option.map_eq_some_iff] at h
  obtain ⟨⟨route, after⟩, hwalk, rfl⟩ := h
  obtain ⟨count, rfl, hagain⟩ := settles_walk hwalk
  refine ⟨e.textOf route, count, rfl, ?_⟩
  intro source' prior hreplays
  rw [expandOnto_eq_walk, hagain source' prior.position hreplays]
  rfl

/-- On a stream of words an expansion comes to its end, in whatever number of attempts. -/
def Ends (word : Nat → UInt64) (e : Expr) (out out' : Output) : Prop :=
  ∃ attempts, e.expandOnto ⟨word, attempts⟩ out = some out'

theorem ends_iff_of_patient {source : WordSource} (h : source.Patient) (e : Expr)
    (out out' : Output) : Ends source.word e out out' ↔ e.expandOnto source out = some out' := by
  constructor
  · rintro ⟨attempts, hends⟩
    obtain ⟨text, count, rfl, hagain⟩ := expandOnto_replay hends
    exact hagain source out ⟨.inr h, fun _ _ => rfl⟩
  · intro hends
    exact ⟨source.attempts, hends⟩

theorem ends_seeded_iff (seed : UInt64) (e : Expr) (out out' : Output) :
    Ends (ChaCha.word seed) e out out' ↔ e.expandOnto (.seeded seed) out = some out' :=
  ends_iff_of_patient (WordSource.patient_seeded seed) e out out'

theorem ends_scripted_iff (words : List UInt64) (e : Expr) (out out' : Output) :
    Ends (WordSource.scripted words).word e out out' ↔
      e.expandOnto (.scripted words) out = some out' :=
  ends_iff_of_patient (WordSource.patient_scripted words) e out out'

theorem Ends.unique {word : Nat → UInt64} {e : Expr} {out first second : Output}
    (h : Ends word e out first) (h' : Ends word e out second) : first = second := by
  obtain ⟨attempts, hfirst⟩ := h
  obtain ⟨attempts', hsecond⟩ := h'
  obtain ⟨text, count, rfl, hagain⟩ := expandOnto_replay hfirst
  obtain ⟨text', count', rfl, hagain'⟩ := expandOnto_replay hsecond
  have hlong := hagain ⟨word, attempts + attempts'⟩ out
    ⟨.inl (Nat.le_add_right _ _), fun _ _ => rfl⟩
  have hlong' := hagain' ⟨word, attempts + attempts'⟩ out
    ⟨.inl (Nat.le_add_left _ _), fun _ _ => rfl⟩
  exact Option.some.inj (hlong.symm.trans hlong')

/-- Where the words that an expansion reads come again, an expansion ends with the same appended,
and in no other way. -/
theorem Ends.replay {word : Nat → UInt64} {e : Expr} {out out' : Output}
    (h : Ends word e out out') :
    ∃ text count, out' = ⟨out.text ++ text, out.position + count⟩ ∧
      ∀ (word' : Nat → UInt64) (prior prior' : Output),
        SameWords word word' out.position prior.position count →
          (Ends word' e prior prior' ↔
            prior' = ⟨prior.text ++ text, prior.position + count⟩) := by
  obtain ⟨attempts, hends⟩ := h
  obtain ⟨text, count, rfl, hagain⟩ := expandOnto_replay hends
  refine ⟨text, count, rfl, ?_⟩
  intro word' prior prior' hwords
  have hends' : Ends word' e prior ⟨prior.text ++ text, prior.position + count⟩ :=
    ⟨attempts, hagain ⟨word', attempts⟩ prior ⟨.inl (Nat.le_refl _), hwords⟩⟩
  constructor
  · intro hother
    exact hother.unique hends'
  · rintro rfl
    exact hends'

end Expr

end ChoiceGrammar
