import ChoiceGrammar.Proofs.Expansion.Replay

/-!
# Expansions that share a stream

In a run of expansions each begins where the one before it stopped. It does what it would do alone
on the words that are left for it, since it depends on no others.
-/

namespace ChoiceGrammar

namespace Expr

/-- Successive expansions, each from where the one before it stopped. -/
def expandEach (source : WordSource) : List Expr → (position : Nat) → Option (List Output)
  | [], _ => some []
  | e :: es, position =>
      match e.expandFrom source position with
      | none => none
      | some out => (expandEach source es out.position).map (out :: ·)

theorem expandTimes_eq_expandEach (source : WordSource) (e : Expr) (times position : Nat) :
    expandTimes source e times position = expandEach source (.replicate times e) position := by
  induction times generalizing position with
  | zero => rfl
  | succ times ih =>
      rw [expandTimes, List.replicate_succ, expandEach]
      cases e.expandFrom source position with
      | none => rfl
      | some out => simp only [ih]

theorem expandEach_cons_eq_some_iff {source : WordSource} {e : Expr} {es : List Expr}
    {position : Nat} {outs : List Output} :
    expandEach source (e :: es) position = some outs ↔ ∃ out others, outs = out :: others ∧
      e.expandFrom source position = some out ∧
        expandEach source es out.position = some others := by
  rw [expandEach]
  cases e.expandFrom source position with
  | none => simp
  | some out =>
      simp only [Option.map_eq_some_iff]
      constructor
      · rintro ⟨others, hothers, rfl⟩
        exact ⟨out, others, rfl, rfl, hothers⟩
      · rintro ⟨_, others, rfl, hout, hothers⟩
        obtain rfl := Option.some.inj hout
        exact ⟨others, hothers, rfl⟩

end Expr

/-- The words of a source from a position on. -/
def WordSource.dropped (source : WordSource) (position : Nat) : WordSource where
  word i := source.word (position + i)
  attempts := source.attempts

namespace Expr

theorem expandFrom_eq_some_iff_dropped {source : WordSource} {e : Expr} {position : Nat}
    {out : Output} :
    e.expandFrom source position = some out ↔ ∃ count, out.position = position + count ∧
      e.expandFrom (source.dropped position) 0 = some ⟨out.text, count⟩ := by
  constructor
  · intro h
    obtain ⟨text, count, rfl, hagain⟩ := expandOnto_replay h
    refine ⟨count, rfl, ?_⟩
    have hleft := hagain (source.dropped position) ⟨"", 0⟩
      ⟨.inl (Nat.le_refl _), fun i _ => by simp [WordSource.dropped]⟩
    simpa [expandFrom] using hleft
  · rintro ⟨count, hposition, h⟩
    obtain ⟨text, count', hout, hagain⟩ := expandOnto_replay h
    obtain ⟨htext, rfl⟩ : out.text = text ∧ count = count' := by simpa using hout
    have hback := hagain source ⟨"", position⟩
      ⟨.inl (Nat.le_refl _), fun i _ => by simp [WordSource.dropped]⟩
    obtain ⟨text, _⟩ := out
    subst htext hposition
    simpa [expandFrom] using hback

/-- In a run, each expansion is one on the words that those before it have left. -/
theorem expandEach_eq_some_iff {source : WordSource} {es : List Expr} {position : Nat}
    {outs : List Output} :
    expandEach source es position = some outs ↔ outs.length = es.length ∧
      ∀ (i : Nat) (e : Expr) (out : Output) (start : Nat), es[i]? = some e → outs[i]? = some out →
        (position :: outs.map Output.position)[i]? = some start →
          ∃ count, out.position = start + count ∧
            e.expandFrom (source.dropped start) 0 = some ⟨out.text, count⟩ := by
  induction es generalizing position outs with
  | nil => simp [expandEach, eq_comm]
  | cons e es ih =>
      rw [expandEach_cons_eq_some_iff]
      constructor
      · rintro ⟨out, others, rfl, hout, hothers⟩
        obtain ⟨hlength, halone⟩ := ih.mp hothers
        refine ⟨by simp [hlength], ?_⟩
        intro i e' out' start he hout' hstart
        cases i with
        | zero =>
            obtain rfl : e = e' := by simpa using he
            obtain rfl : out = out' := by simpa using hout'
            obtain rfl : position = start := by simpa using hstart
            exact expandFrom_eq_some_iff_dropped.mp hout
        | succ i =>
            exact halone i e' out' start (by simpa using he) (by simpa using hout')
              (by simpa using hstart)
      · rintro ⟨hlength, halone⟩
        obtain ⟨out, others, rfl⟩ := List.exists_cons_of_length_eq_add_one hlength
        refine ⟨out, others, rfl, ?_, ?_⟩
        · exact expandFrom_eq_some_iff_dropped.mpr (halone 0 e out position rfl rfl rfl)
        · refine ih.mpr ⟨by simpa using hlength, ?_⟩
          intro i e' out' start he hout' hstart
          exact halone (i + 1) e' out' start (by simpa using he) (by simpa using hout')
            (by simpa using hstart)

/-- An expansion that ends appends a text and reads some words. On every stream where these words
come again it does the same, behind whatever has been written, and in no other way. A run of
expansions on one stream comes to what each of them gives alone on the words left for it. The
streams of seeds and the scripted ones are among these, and so are the runs of one expression. -/
theorem expansion_fixed_by_words_read :
    (∀ (e : Expr) (word : Nat → UInt64) (prior : String) (position : Nat) (out : Output),
      Ends word e ⟨prior, position⟩ out → ∃ text count, out = ⟨prior ++ text, position + count⟩ ∧
        ∀ (word' : Nat → UInt64) (prior' : String) (position' : Nat),
          (∀ i < count, word' (position' + i) = word (position + i)) → ∀ out',
            Ends word' e ⟨prior', position'⟩ out' ↔
              out' = ⟨prior' ++ text, position' + count⟩) ∧
    (∀ (source : WordSource) (es : List Expr) (position : Nat) (outs : List Output),
      expandEach source es position = some outs ↔ outs.length = es.length ∧
        ∀ (i : Nat) (e : Expr) (out : Output) (start : Nat), es[i]? = some e →
          outs[i]? = some out → (position :: outs.map Output.position)[i]? = some start →
            ∃ count, out.position = start + count ∧
              e.expandFrom (source.dropped start) 0 = some ⟨out.text, count⟩) ∧
    (∀ (seed : UInt64) (e : Expr) (out out' : Output),
      Ends (ChaCha.word seed) e out out' ↔ e.expandOnto (.seeded seed) out = some out') ∧
    (∀ (words : List UInt64) (e : Expr) (out out' : Output),
      Ends (WordSource.scripted words).word e out out' ↔
        e.expandOnto (.scripted words) out = some out') ∧
    ∀ (source : WordSource) (e : Expr) (times position : Nat),
      expandTimes source e times position = expandEach source (.replicate times e) position := by
  refine ⟨?_, ?_, ends_seeded_iff, ends_scripted_iff, expandTimes_eq_expandEach⟩
  · intro e word prior position out h
    obtain ⟨text, count, hout, hagain⟩ := h.replay
    refine ⟨text, count, hout, ?_⟩
    intro word' prior' position' hwords out'
    exact hagain word' ⟨prior', position'⟩ out' hwords
  · intro source es position outs
    exact expandEach_eq_some_iff

/-- A draw that rejects its first pair does so again one word later on another stream, behind
another text. The second expansion of a run begins with the words behind the first. -/
theorem expansion_fixed_by_words_read_rejected :
    let e : Expr := alt (.term "x") [.term "yy"]
    let source := WordSource.scripted [0, 0x4000000000000000, 0, 0x8000000000000000, 6, 7]
    let source' := WordSource.scripted [9, 0, 0x4000000000000000, 0, 0x8000000000000000, 5]
    Ends source.word e ⟨"a", 0⟩ ⟨"ayy", 4⟩ ∧
      (∀ out', Ends source'.word e ⟨"b", 1⟩ out' ↔ out' = ⟨"byy", 5⟩) ∧
      expandEach source [e, e] 0 = some [⟨"yy", 4⟩, ⟨"x", 6⟩] ∧
      e.expandFrom (source.dropped 4) 0 = some ⟨"x", 2⟩ := by
  intro e source source'
  obtain ⟨hread, hrun, -⟩ := expansion_fixed_by_words_read
  have hends : Ends source.word e ⟨"a", 0⟩ ⟨"ayy", 4⟩ := ⟨7, by decide⟩
  obtain ⟨text, count, hout, hagain⟩ := hread e source.word "a" 0 ⟨"ayy", 4⟩ hends
  obtain ⟨htext, hcount⟩ : "ayy" = "a" ++ text ∧ 4 = 0 + count := by simpa using hout
  obtain rfl : 4 = count := hcount.trans (Nat.zero_add count)
  obtain rfl : "yy" = text := (String.append_right_inj "a").mp htext
  have hwords : ∀ i < 4, source'.word (1 + i) = source.word (0 + i) := by decide
  have htwo : expandEach source [e, e] 0 = some [⟨"yy", 4⟩, ⟨"x", 6⟩] := by decide
  obtain ⟨-, halone⟩ := (hrun source [e, e] 0 [⟨"yy", 4⟩, ⟨"x", 6⟩]).mp htwo
  obtain ⟨count, hposition, hsecond⟩ := halone 1 e ⟨"x", 6⟩ 4 rfl rfl rfl
  obtain rfl : 2 = count := Nat.add_left_cancel (show 4 + 2 = 4 + count from hposition)
  exact ⟨hends, hagain source'.word "b" 1 hwords, htwo, hsecond⟩

end Expr

end ChoiceGrammar
