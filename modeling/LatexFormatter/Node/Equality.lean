import LatexFormatter.Node.Basic

/-
  Equality of trees can be decided: `Node.same` compares two trees from the
  root down, and `Node.same_iff` says that it holds of equal trees only.
-/

namespace LatexFormatter.Node

mutual

/-- Whether two trees are the same. -/
def same : Node → Node → Bool
  | list xs, list ys => sameList xs ys
  | string a, string b => a == b
  | whitespace, whitespace => true
  | parbreak, parbreak => true
  | command a xs, command b ys => a == b && sameArgs xs ys
  | environment a xs us, environment b ys vs => a == b && sameArgs xs ys && sameList us vs
  | mathEnvironment a xs, mathEnvironment b ys => a == b && sameList xs ys
  | inlineMath xs, inlineMath ys => sameList xs ys
  | displayMath xs, displayMath ys => sameList xs ys
  | group xs, group ys => sameList xs ys
  | script m x, script n y => m == n && sameBase x y
  | verbatim a, verbatim b => a == b
  | verb c a, verb d b => c == d && a == b
  | commentEnvironment a, commentEnvironment b => a == b
  | comment a s, comment b t => a == b && s == t
  | arguments xs, arguments ys => sameList xs ys
  | _, _ => false

/-- Whether two lists of trees are the same. -/
def sameList : List Node → List Node → Bool
  | [], [] => true
  | x :: xs, y :: ys => same x y && sameList xs ys
  | _, _ => false

/-- Whether two optional argument lists are the same. -/
def sameArgs : Option (List Node) → Option (List Node) → Bool
  | none, none => true
  | some xs, some ys => sameList xs ys
  | _, _ => false

/-- Whether two optional bases are the same. -/
def sameBase : Option Node → Option Node → Bool
  | none, none => true
  | some x, some y => same x y
  | _, _ => false

end

mutual

theorem same_self : ∀ node : Node, same node node = true
  | list xs => by simp [same, sameList_self xs]
  | string _ => by simp [same]
  | whitespace => by simp [same]
  | parbreak => by simp [same]
  | command _ xs => by simp [same, sameArgs_self xs]
  | environment _ xs us => by simp [same, sameArgs_self xs, sameList_self us]
  | mathEnvironment _ xs => by simp [same, sameList_self xs]
  | inlineMath xs => by simp [same, sameList_self xs]
  | displayMath xs => by simp [same, sameList_self xs]
  | group xs => by simp [same, sameList_self xs]
  | script _ x => by simp [same, sameBase_self x]
  | verbatim _ => by simp [same]
  | verb _ _ => by simp [same]
  | commentEnvironment _ => by simp [same]
  | comment _ _ => by simp [same]
  | arguments xs => by simp [same, sameList_self xs]

theorem sameList_self : ∀ xs : List Node, sameList xs xs = true
  | [] => by simp [sameList]
  | x :: xs => by simp [sameList, same_self x, sameList_self xs]

theorem sameArgs_self : ∀ xs : Option (List Node), sameArgs xs xs = true
  | none => by simp [sameArgs]
  | some xs => by simp [sameArgs, sameList_self xs]

theorem sameBase_self : ∀ x : Option Node, sameBase x x = true
  | none => by simp [sameBase]
  | some x => by simp [sameBase, same_self x]

end

mutual

theorem eq_of_same : ∀ a b : Node, same a b = true → a = b
  | list xs, b => by
    cases b <;> simp [same]
    exact eq_of_sameList xs _
  | string _, b => by cases b <;> simp [same]
  | whitespace, b => by cases b <;> simp [same]
  | parbreak, b => by cases b <;> simp [same]
  | command _ xs, b => by
    cases b <;> simp [same]
    exact fun h g => ⟨h, eq_of_sameArgs xs _ g⟩
  | environment _ xs us, b => by
    cases b <;> simp [same]
    exact fun h g k => ⟨h, eq_of_sameArgs xs _ g, eq_of_sameList us _ k⟩
  | mathEnvironment _ xs, b => by
    cases b <;> simp [same]
    exact fun h g => ⟨h, eq_of_sameList xs _ g⟩
  | inlineMath xs, b => by
    cases b <;> simp [same]
    exact eq_of_sameList xs _
  | displayMath xs, b => by
    cases b <;> simp [same]
    exact eq_of_sameList xs _
  | group xs, b => by
    cases b <;> simp [same]
    exact eq_of_sameList xs _
  | script _ x, b => by
    cases b <;> simp [same]
    exact fun h g => ⟨h, eq_of_sameBase x _ g⟩
  | verbatim _, b => by cases b <;> simp [same]
  | verb _ _, b => by cases b <;> simp [same]
  | commentEnvironment _, b => by cases b <;> simp [same]
  | comment _ _, b => by cases b <;> simp [same]
  | arguments xs, b => by
    cases b <;> simp [same]
    exact eq_of_sameList xs _

theorem eq_of_sameList : ∀ xs ys : List Node, sameList xs ys = true → xs = ys
  | [], ys => by cases ys <;> simp [sameList]
  | x :: xs, ys => by
    cases ys <;> simp [sameList]
    exact fun h g => ⟨eq_of_same x _ h, eq_of_sameList xs _ g⟩

theorem eq_of_sameArgs : ∀ xs ys : Option (List Node), sameArgs xs ys = true → xs = ys
  | none, ys => by cases ys <;> simp [sameArgs]
  | some xs, ys => by
    cases ys <;> simp [sameArgs]
    exact eq_of_sameList xs _

theorem eq_of_sameBase : ∀ x y : Option Node, sameBase x y = true → x = y
  | none, y => by cases y <;> simp [sameBase]
  | some x, y => by
    cases y <;> simp [sameBase]
    exact eq_of_same x _

end

/-- Two trees are equal exactly when they are the same. -/
theorem same_iff (a b : Node) : same a b = true ↔ a = b :=
  ⟨eq_of_same a b, fun h => h ▸ same_self a⟩

instance : DecidableEq Node := fun a b => decidable_of_iff _ (same_iff a b)

end LatexFormatter.Node
