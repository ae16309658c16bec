import LatexFormatter.Doc.Indentation

/-
  The commands that laying out a document goes through, and what they cost.
  Every step of the layout, and every step of looking ahead, replaces a command
  by others that together cost less, which is why both come to an end.
-/

namespace LatexFormatter.Doc

/-- Whether line breaks are taken or passed over. -/
inductive Flow where
  | broken
  | flat
  deriving Repr, DecidableEq

/-- How line breaks go inside a group, which may have to be broken. -/
def Flow.inside (flow : Flow) (broken : Bool) : Flow := if broken then .broken else flow

/-- One of two documents. -/
def Flow.choose (flow : Flow) (broken flat : Doc) : Doc :=
  match flow with
  | .broken => broken
  | .flat => flat

/-- What a group amounts to when its line breaks are taken: the most expanded of
its states, if it has any. -/
def mostExpanded (contents : Doc) : Option (List Doc) → Doc
  | none => contents
  | some states => states.getLastD contents

/-- A document still to be printed, and how. -/
structure Command where
  indentation : Indentation
  flow : Flow
  doc : Doc

/-- Commands to print several documents in the same way. -/
def Command.all (indentation : Indentation) (flow : Flow) (docs : List Doc) : List Command :=
  docs.map fun doc => ⟨indentation, flow, doc⟩

mutual

/-- How many steps printing a document may take. A fill takes one step for each
of its parts, since it is taken apart piece by piece; a line suffix one to be
put off and one to be taken up again; a boundary may turn into a line. -/
def cost : Doc → Nat
  | text _ => 1
  | concat parts => costAll parts + 1
  | group contents _ states => cost contents + costStates states + 1
  | fill parts => costAll parts + parts.length + 1
  | indent contents => cost contents + 1
  | align _ contents => cost contents + 1
  | line _ _ _ => 1
  | ifBreak broken flat => cost broken + cost flat + 1
  | lineSuffix contents => cost contents + 2
  | lineSuffixBoundary => 2
  | breakParent => 1
  | trim => 1
  | cursor => 1

/-- The cost of several documents. -/
def costAll : List Doc → Nat
  | [] => 0
  | doc :: rest => cost doc + costAll rest

/-- The cost of the further states of a group. -/
def costStates : Option (List Doc) → Nat
  | none => 0
  | some states => costAll states

end

/-- The cost of commands. -/
def commandCost : List Command → Nat
  | [] => 0
  | command :: rest => command.doc.cost + commandCost rest

theorem cost_pos (doc : Doc) : 0 < doc.cost := by
  cases doc <;> simp [cost]

@[simp] theorem commandCost_append (xs ys : List Command) :
    commandCost (xs ++ ys) = commandCost xs + commandCost ys := by
  induction xs with
  | nil => simp [commandCost]
  | cons x xs ih => simp [commandCost, ih]; omega

@[simp] theorem commandCost_all (indentation : Indentation) (flow : Flow) (docs : List Doc) :
    commandCost (Command.all indentation flow docs) = costAll docs := by
  induction docs with
  | nil => rfl
  | cons doc docs ih =>
    simp only [Command.all, List.map_cons, commandCost, costAll] at ih ⊢
    omega

theorem cost_le_costAll {doc : Doc} {docs : List Doc} (h : doc ∈ docs) :
    doc.cost ≤ costAll docs := by
  induction docs with
  | nil => simp at h
  | cons d docs ih =>
    rcases List.mem_cons.1 h with rfl | h
    · simp [costAll]
    · have := ih h
      simp [costAll]; omega

theorem cost_mostExpanded (contents : Doc) (states : Option (List Doc)) :
    (mostExpanded contents states).cost ≤ contents.cost + costStates states := by
  cases states with
  | none => simp [mostExpanded]
  | some states =>
    simp only [mostExpanded, costStates]
    cases h : states.getLast? with
    | none => simp [List.getLastD_eq_getLast?, h]
    | some last =>
      have := cost_le_costAll (List.mem_of_getLast? h)
      simp [List.getLastD_eq_getLast?, h]; omega

theorem cost_choose_le (flow : Flow) (broken flat : Doc) :
    (flow.choose broken flat).cost ≤ broken.cost + flat.cost := by
  cases flow <;> simp [Flow.choose]

theorem cost_choose_mostExpanded (flow : Flow) (contents : Doc) (states : Option (List Doc)) :
    (flow.choose (mostExpanded contents states) contents).cost
      ≤ contents.cost + costStates states := by
  cases flow
  · exact cost_mostExpanded contents states
  · simp [Flow.choose]

end LatexFormatter.Doc
