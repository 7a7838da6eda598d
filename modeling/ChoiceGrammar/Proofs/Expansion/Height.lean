import ChoiceGrammar.Expr.Encode
import ChoiceGrammar.Expr.Expand
import ChoiceGrammar.Proofs.Counting.Saturation

/-!
# Heights

The height of a tree is the number of trees on the longest way down, a leaf being a tree too. The
bodies of the functions that expand, encode, count and measure a tree are written here with the
calls to themselves left open. Each call is on a tree right below, and so calls nest no deeper than
the tree is high.
-/

namespace ChoiceGrammar.Expr

mutual
def height : Expr → Nat
  | term _ => 1
  | empty => 1
  | seq items => heightMax items + 1
  | alt first rest => max first.height (heightMax rest) + 1

def heightMax : List Expr → Nat
  | [] => 0
  | e :: es => max e.height (heightMax es)
end

/-- The trees right below. -/
def children : Expr → List Expr
  | term _ => []
  | empty => []
  | seq items => items
  | alt first rest => first :: rest

theorem height_eq (e : Expr) : e.height = heightMax e.children + 1 := by
  cases e <;> rfl

theorem heightMax_le_iff {es : List Expr} {n : Nat} :
    heightMax es ≤ n ↔ ∀ e ∈ es, e.height ≤ n := by
  induction es with
  | nil => simp [heightMax]
  | cons e es ih => rw [heightMax, Nat.max_le, ih, List.forall_mem_cons]

section Calls

variable {α β : Type}

/-- The value of a function with this body, `none` where calls nest deeper than `depth`. -/
def nestedWithin (body : (α → Option β) → α → Option β) : (depth : Nat) → α → Option β
  | 0, _ => none
  | depth + 1, x => body (nestedWithin body depth) x

/-- Calls on arguments of lower rank nest no deeper than the rank. -/
theorem nestedWithin_eq {body : (α → Option β) → α → Option β} {f : α → β} {rank : α → Nat}
    (hbody : ∀ call x, (∀ y, rank y < rank x → call y = some (f y)) → body call x = some (f x))
    (hpos : ∀ x, 0 < rank x) {depth : Nat} {x : α} (h : rank x ≤ depth) :
    nestedWithin body depth x = some (f x) := by
  induction depth generalizing x with
  | zero => exact absurd (hpos x) (Nat.not_lt.mpr h)
  | succ depth ih =>
      apply hbody
      intro y hy
      exact ih (Nat.le_of_lt_succ (Nat.lt_of_lt_of_le hy h))

theorem mapM_call {call : α → Option β} {f : α → β} {xs : List α}
    (h : ∀ x ∈ xs, call x = some (f x)) : xs.mapM call = some (xs.map f) := by
  induction xs with
  | nil => rfl
  | cons x xs ih =>
      have hx := h x (by simp)
      have hxs := ih fun y hy => h y (by simp [hy])
      simp [List.mapM_cons, hx, hxs]

end Calls

theorem height_pos (e : Expr) : 0 < e.height := by
  rw [height_eq]
  exact Nat.succ_pos _

theorem height_lt_of_mem_children {e child : Expr} (h : child ∈ e.children) :
    child.height < e.height := by
  rw [height_eq e]
  exact Nat.lt_succ_of_le (heightMax_le_iff.mp (Nat.le_refl _) child h)

/-- Expands items one by one. -/
def expandCalling (call : Expr × Output → Option (Option Output)) :
    List Expr → Output → Option (Option Output)
  | [], out => some (some out)
  | item :: items, out =>
      match call (item, out) with
      | none => none
      | some none => some none
      | some (some out) => expandCalling call items out

def expandBody (source : WordSource) (call : Expr × Output → Option (Option Output)) :
    Expr × Output → Option (Option Output)
  | (term text, out) => some (some { out with text := out.text ++ text })
  | (empty, out) => some (some out)
  | (seq items, out) => expandCalling call items out
  | (alt first rest, out) =>
      match Draw.uniform source (totalWeight (first :: rest)) out.position with
      | none => some none
      | some (draw, position) =>
          match (first :: rest)[selectIndex (first :: rest) draw]? with
          | none => some (some { out with position })
          | some branch => call (branch, { out with position })

def encodeBody (call : Expr → Option (List Char)) : Expr → Option (List Char)
  | term text => some text.toList
  | empty => some []
  | seq items => (items.mapM call).map List.flatten
  | alt first rest => ((first :: rest).mapM call).map fun branches =>
      '<' :: (['|'].intercalate branches ++ ['>'])

def countBody (call : Expr → Option UInt64) : Expr → Option UInt64
  | term _ => some 1
  | empty => some 1
  | seq items => (items.mapM call).map
      (·.foldl (fun product count => saturate (product.toNat * count.toNat)) 1)
  | alt first rest => ((first :: rest).mapM call).map fun counts =>
      saturate ((counts.map widen).foldr (· + ·) 0).toNat

def measureBody (call : Expr → Option UInt64) : Expr → Option UInt64
  | term text => some (.ofNat text.utf8ByteSize)
  | empty => some 0
  | seq items => (items.mapM call).map (·.foldr (· + ·) 0)
  | alt first rest => ((first :: rest).mapM call).map (·.foldr max 0)

theorem expandNth_eq (source : WordSource) (branches : List Expr) (i : Nat) (out : Output) :
    expandNth source branches i out =
      match branches[i]? with
      | none => some out
      | some branch => branch.expandOnto source out := by
  induction branches generalizing i with
  | nil => rfl
  | cons branch branches ih =>
      cases i with
      | zero => rfl
      | succ i => exact ih i

theorem expandCalling_eq {source : WordSource} {call : Expr × Output → Option (Option Output)}
    {items : List Expr}
    (h : ∀ item ∈ items, ∀ out, call (item, out) = some (item.expandOnto source out))
    (out : Output) : expandCalling call items out = some (expandAll source items out) := by
  induction items generalizing out with
  | nil => rfl
  | cons item items ih =>
      rw [expandCalling, expandAll, h item (by simp)]
      cases item.expandOnto source out with
      | none => rfl
      | some next => exact ih (fun other hother => h other (by simp [hother])) next

theorem expandBody_eq {source : WordSource} (call : Expr × Output → Option (Option Output))
    (x : Expr × Output) (h : ∀ y : Expr × Output, y.1.height < x.1.height →
      call y = some (y.1.expandOnto source y.2)) :
    expandBody source call x = some (x.1.expandOnto source x.2) := by
  obtain ⟨e, out⟩ := x
  have hchild (child : Expr) (hc : child ∈ e.children) (out : Output) :
      call (child, out) = some (child.expandOnto source out) :=
    h (child, out) (height_lt_of_mem_children hc)
  cases e with
  | term text => rfl
  | empty => rfl
  | seq items => exact expandCalling_eq hchild out
  | alt first rest =>
      simp only [expandBody, expandOnto]
      cases Draw.uniform source (totalWeight (first :: rest)) out.position with
      | none => rfl
      | some drawn =>
          obtain ⟨draw, position⟩ := drawn
          dsimp only
          cases selectIndex (first :: rest) draw with
          | zero => exact hchild first List.mem_cons_self _
          | succ i =>
              simp only [List.getElem?_cons_succ, expandNth_eq]
              cases hbranch : rest[i]? with
              | none => rfl
              | some branch =>
                  exact hchild branch (List.mem_cons_of_mem _ (List.mem_of_getElem? hbranch)) _

theorem chars_append_charsBarred (first : Expr) (rest : List Expr) :
    first.chars ++ charsBarred rest =
      ['|'].intercalate ((first :: rest).map chars) ++ ['>'] := by
  induction rest generalizing first with
  | nil => simp [charsBarred]
  | cons branch rest ih => simp [charsBarred, ih branch]

theorem encodeBody_eq (call : Expr → Option (List Char)) (e : Expr)
    (h : ∀ child, child.height < e.height → call child = some child.chars) :
    encodeBody call e = some e.chars := by
  have hchildren := mapM_call fun child hc => h child (height_lt_of_mem_children hc)
  cases e with
  | term text => rfl
  | empty => rfl
  | seq items =>
      rw [children] at hchildren
      rw [encodeBody, hchildren, chars, charsConcat_eq]
      rfl
  | alt first rest =>
      rw [children] at hchildren
      rw [encodeBody, hchildren, chars, chars_append_charsBarred]
      rfl

theorem countBody_eq (call : Expr → Option UInt64) (e : Expr)
    (h : ∀ child, child.height < e.height → call child = some child.count) :
    countBody call e = some e.count := by
  have hchildren := mapM_call fun child hc => h child (height_lt_of_mem_children hc)
  cases e with
  | term text => rfl
  | empty => rfl
  | seq items =>
      rw [children] at hchildren
      rw [countBody, hchildren, count, countProduct_eq_foldl, Option.map_some, List.foldl_map]
  | alt first rest =>
      rw [children] at hchildren
      rw [countBody, hchildren, count_alt, totalWeight, Option.map_some, List.map_map]
      rfl

theorem lengthSum_eq_foldr (items : List Expr) :
    lengthSum items = (items.map maxLength).foldr (· + ·) 0 := by
  induction items with
  | nil => rfl
  | cons item items ih => rw [lengthSum, ih, List.map_cons, List.foldr_cons]

theorem lengthMax_eq_foldr (branches : List Expr) :
    lengthMax branches = (branches.map maxLength).foldr max 0 := by
  induction branches with
  | nil => rfl
  | cons branch branches ih => rw [lengthMax, ih, List.map_cons, List.foldr_cons]

theorem measureBody_eq (call : Expr → Option UInt64) (e : Expr)
    (h : ∀ child, child.height < e.height → call child = some child.maxLength) :
    measureBody call e = some e.maxLength := by
  have hchildren := mapM_call fun child hc => h child (height_lt_of_mem_children hc)
  cases e with
  | term text => rfl
  | empty => rfl
  | seq items =>
      rw [children] at hchildren
      rw [measureBody, hchildren, maxLength, lengthSum_eq_foldr]
      rfl
  | alt first rest =>
      rw [children] at hchildren
      rw [measureBody, hchildren, maxLength, lengthMax_eq_foldr]
      rfl

/-- Expanding, encoding, counting and measuring the tree takes calls nested at most so deep. -/
structure CallsWithin (depth : Nat) (e : Expr) : Prop where
  expanding : ∀ source out,
    nestedWithin (expandBody source) depth (e, out) = some (e.expandOnto source out)
  encoding : nestedWithin encodeBody depth e = some e.chars
  counting : nestedWithin countBody depth e = some e.count
  measuring : nestedWithin measureBody depth e = some e.maxLength

theorem callsWithin_of_height_le {depth : Nat} {e : Expr} (h : e.height ≤ depth) :
    CallsWithin depth e where
  expanding source out := by
    have hpos : ∀ x : Expr × Output, 0 < x.1.height := fun x => height_pos x.1
    exact nestedWithin_eq expandBody_eq hpos h
  encoding := nestedWithin_eq encodeBody_eq height_pos h
  counting := nestedWithin_eq countBody_eq height_pos h
  measuring := nestedWithin_eq measureBody_eq height_pos h

end ChoiceGrammar.Expr
