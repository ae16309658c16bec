import LatexFormatter.Format
import LatexFormatter.Proofs.Grammar.Tokens
import LatexFormatter.Proofs.Grammar.Transparency
import Mathlib.Data.List.Infix

/-
  The grammar as a relation between texts and trees, beside the rules that read.
  `Derives` says in one clause per construct how a node may be written before
  what comes after it: which of its characters are fixed, which names and
  contents it may have, where a word or a name has to end, and where blanks may
  stand that the tree does not keep. The relation looks at no choice of the
  rules, but it holds of everything they return: whatever a rule reads, from any
  memory, is built into a node, and the text it passed over derives that node
  (`readDocument_derives`). What is true of every derivation is therefore true
  of every tree that is read.
-/

namespace LatexFormatter

/-! ## Names -/

/-- The name of a command: letters, but not the commands that open and close
environments, or one character of any other kind. -/
def IsControlName (name : String) : Prop :=
  (name ≠ "" ∧ (∀ c ∈ name.toList, isLetter c = true) ∧ name ≠ "begin" ∧ name ≠ "end") ∨
    ∃ c, name.toList = [c] ∧ isLetter c = false

/-- The name stands between the braces of a tag. -/
def IsTagName (name : String) : Prop := ∀ c ∈ name.toList, c ≠ '{' ∧ c ≠ '}'

/-- The node that math between these delimiters is. -/
def MathDelimiter.node (body : List Node) : MathDelimiter → Node
  | dollar => .inlineMath body
  | parentheses => .inlineMath body
  | dollars => .displayMath body
  | brackets => .displayMath body

/-- A string ends where it is cut. In math each character is a string, also a null
character as the base of a script; elsewhere a string is a mark that stands for
itself, or the whole word that is read before `rest`. -/
def Cut (mode : Mode) (content rest : List Char) : Prop :=
  match mode with
  | .math => ∃ c, content = [c] ∧ (c = '&' ∨ c = '#' ∨ c = '\x00' ∨ isMathChar c = true)
  | _ => content = ['&'] ∨ content = ['#'] ∨
      (∀ c ∈ content, isPlain c = true ∨ isPunctuation c = true) ∧
        wordLength (content ++ rest) = content.length

/-! ## The relation -/

mutual

/-- Read in the given mode before `rest`, the text is one way to write the
node. -/
inductive Derives : Mode → List Char → Node → List Char → Prop
  /-- In math, blanks are dropped around what takes them along. -/
  | padded {text rest : List Char} {node : Node} (before after : List Char)
      (hb : ∀ c ∈ before, isBlank c = true) (ha : ∀ c ∈ after, isBlank c = true)
      (ht : ∃ c ∈ (text ++ (after ++ rest)).head?, takesBlanks c = true)
      (h : Derives .math text node (after ++ rest)) :
      Derives .math (before ++ text ++ after) node rest
  | string {mode : Mode} {rest : List Char} (content : String) (hne : content.toList ≠ [])
      (hc : Cut mode content.toList rest) : Derives mode content.toList (.string content) rest
  | space {mode : Mode} {blanks rest : List Char} {node : Node} (hne : blanks ≠ [])
      (hb : ∀ c ∈ blanks, isBlank c = true) (hn : node.isSpace = true) :
      Derives mode blanks node rest
  /-- A comment takes the blanks before it along, and its line ending. -/
  | comment {mode : Mode} {rest : List Char} (before after : List Char)
      (hb : ∀ c ∈ before, isBlank c = true) (ha : ∀ c ∈ after, isBlank c = true)
      (content : String) (sameline : Bool) (hc : ∀ c ∈ content.toList, isLineBreak c = false) :
      Derives mode (before ++ '%' :: content.toList ++ after) (.comment content sameline) rest
  | group {mode : Mode} {text rest : List Char} {body : List Node}
      (h : DerivesAll .text text body ('}' :: rest)) :
      Derives mode ('{' :: text ++ ['}']) (.group body) rest
  | math {mode : Mode} (delimiter : MathDelimiter) {text rest : List Char} {body : List Node}
      (h : DerivesAll .math text body (delimiter.closing ++ rest)) :
      Derives mode (delimiter.opening ++ text ++ delimiter.closing) (delimiter.node body) rest
  | script {mode : Mode} (mark : Mark) {text rest : List Char} {base : Option Node}
      (h : DerivesBase text base rest) : Derives mode (mark.char :: text) (.script mark base) rest
  /-- A name of letters has all the letters there are. -/
  | command {mode : Mode} (name : String) (hn : IsControlName name) {text rest : List Char}
      {args : Option (List Node)}
      (hend : (∀ c ∈ name.toList, isLetter c = true) →
        ∀ c ∈ (text ++ rest).head?, isLetter c = false)
      (h : DerivesArgs text args rest) :
      Derives mode ('\\' :: name.toList ++ text) (.command name args) rest
  | verb {mode : Mode} {rest : List Char} (delimiter : Char) (content : String)
      (hl : isLetter delimiter = false) (hw : Text.isWhiteSpace delimiter = false)
      (hc : delimiter ∉ content.toList) :
      Derives mode (['\\', 'v', 'e', 'r', 'b'] ++ delimiter :: content.toList ++ [delimiter])
        (.verb delimiter content) rest
  | verbatim {mode : Mode} {rest : List Char} (content : String)
      (hc : ¬ closingTag verbatimName <:+: content.toList) :
      Derives mode (openingTag verbatimName ++ content.toList ++ closingTag verbatimName)
        (.verbatim content) rest
  /-- A block comment takes its line ending along. -/
  | commentEnvironment {mode : Mode} {rest : List Char} (after : List Char)
      (ha : ∀ c ∈ after, isBlank c = true) (content : String)
      (hc : ¬ closingTag commentName <:+: content.toList) :
      Derives mode (openingTag commentName ++ content.toList ++ closingTag commentName ++ after)
        (.commentEnvironment content) rest
  | mathEnvironment {mode : Mode} (name : String) (hn : IsTagName name)
      (hm : isMathEnvironment name = true) {text rest : List Char} {body : List Node}
      (h : DerivesAll .math text body (closingTag name ++ rest)) :
      Derives mode (openingTag name ++ text ++ closingTag name) (.mathEnvironment name body) rest
  | environment {mode : Mode} (name : String) (hn : IsTagName name) (hv : name ≠ verbatimName)
      (hc : name ≠ commentName) {front text rest : List Char} {args : Option (List Node)}
      {body : List Node} (hargs : DerivesArgs front args (text ++ closingTag name ++ rest))
      (h : DerivesAll .text text body (closingTag name ++ rest)) :
      Derives mode (openingTag name ++ front ++ text ++ closingTag name)
        (.environment name args body) rest

/-- Read before `rest`, the text is one way to write the nodes, one after the
other. Null characters between them are dropped. -/
inductive DerivesAll : Mode → List Char → List Node → List Char → Prop
  | nil {mode : Mode} {rest : List Char} : DerivesAll mode [] [] rest
  | null {mode : Mode} {text rest : List Char} {nodes : List Node}
      (h : DerivesAll mode text nodes rest) : DerivesAll mode ('\x00' :: text) nodes rest
  | cons {mode : Mode} {first more rest : List Char} {node : Node} {nodes : List Node}
      (h : Derives mode first node (more ++ rest)) (hrest : DerivesAll mode more nodes rest) :
      DerivesAll mode (first ++ more) (node :: nodes) rest

/-- Read before `rest`, the text is one way to write the optional arguments. -/
inductive DerivesArgs : List Char → Option (List Node) → List Char → Prop
  | none {rest : List Char} : DerivesArgs [] none rest
  | some {text rest : List Char} {nodes : List Node} (blanks : List Char)
      (hb : ∀ c ∈ blanks, isBlank c = true) (h : DerivesAll .arguments text nodes (']' :: rest)) :
      DerivesArgs (blanks ++ '[' :: text ++ [']']) (some nodes) rest

/-- Read before `rest`, the text is one way to write the base of a script. -/
inductive DerivesBase : List Char → Option Node → List Char → Prop
  | none {rest : List Char} : DerivesBase [] none rest
  | some {text rest : List Char} {node : Node} (blanks : List Char)
      (hb : ∀ c ∈ blanks, isBlank c = true) (hs : node.isSpace = false)
      (h : Derives .math text node rest) : DerivesBase (blanks ++ text) (some node) rest

end

/-- Space is written as blanks. -/
theorem Derives.isBlank_of_isSpace : ∀ {mode : Mode} {text rest : List Char} {node : Node},
    Derives mode text node rest → node.isSpace = true → text ≠ [] ∧ ∀ c ∈ text, isBlank c = true
  | _, _, _, _, .padded before after hb ha _ h, hs => by
    obtain ⟨hne, hblank⟩ := h.isBlank_of_isSpace hs
    refine ⟨by simp [hne], ?_⟩
    intro c hc
    simp only [List.mem_append] at hc
    rcases hc with (hc | hc) | hc
    · exact hb c hc
    · exact hblank c hc
    · exact ha c hc
  | _, _, _, _, .space hne hb _, _ => ⟨hne, hb⟩
  | _, _, _, _, .math delimiter _, hs => by cases delimiter <;> cases hs

/-! ## What every outcome has -/

/-- Every result of the reading has the property, whatever is remembered. -/
def Yields {α : Type} (reading : StateM Memory α) (holds : α → Prop) : Prop :=
  ∀ memory, holds (reading.run memory).1

/-- Whatever the rule hands on has the property. -/
def Ensures {α : Type} (rule : Reading α) (holds : α → Prop) : Prop :=
  Yields rule.run fun outcome => ∀ a ∈ outcome, holds a

/-- The rule fails in some memory. -/
def Misses {α : Type} (rule : Reading α) : Prop := ∃ memory, (rule.run.run memory).1 = none

section Judgements

variable {α β : Type}

theorem yields_pure {holds : α → Prop} {a : α} (h : holds a) :
    Yields (pure a : StateM Memory α) holds := fun _ => h

theorem Yields.bind {reading : StateM Memory α} {rest : α → StateM Memory β} {p : α → Prop}
    {q : β → Prop} (h : Yields reading p) (hrest : ∀ a, p a → Yields (rest a) q) :
    Yields (reading >>= rest) q := by
  intro memory
  rw [StateT.run_bind]
  exact hrest _ (h memory) _

theorem ensures_pure {holds : α → Prop} {a : α} (h : holds a) :
    Ensures (pure a : Reading α) holds :=
  yields_pure (by simpa using h)

theorem ensures_failure {holds : α → Prop} : Ensures (failure : Reading α) holds :=
  yields_pure (by simp)

theorem ensures_fail {holds : α → Prop} (offset : Nat) (what : String) :
    Ensures (Reading.fail offset what : Reading α) holds := by
  intro memory a ha
  cases ha

theorem ensures_ofOption {holds : α → Prop} {value : Option α} (h : ∀ a ∈ value, holds a) :
    Ensures (Reading.ofOption value) holds :=
  yields_pure h

theorem Yields.lift {reading : StateM Memory α} {holds : α → Prop} (h : Yields reading holds) :
    Ensures (liftM reading : Reading α) holds := by
  show Yields (reading >>= fun a => pure (some a)) _
  exact h.bind fun a ha => yields_pure (by simpa using ha)

theorem Ensures.bind {rule : Reading α} {rest : α → Reading β} {p : α → Prop} {q : β → Prop}
    (h : Ensures rule p) (hrest : ∀ a, p a → Ensures (rest a) q) : Ensures (rule >>= rest) q := by
  unfold Ensures
  simp only [OptionT.run_bind, Option.elimM]
  refine Yields.bind h ?_
  intro outcome houtcome
  cases outcome with
  | none => exact yields_pure (by simp)
  | some a => exact hrest a (houtcome a rfl)

theorem ensures_fail_bind {holds : β → Prop} (offset : Nat) (what : String)
    (rest : α → Reading β) : Ensures (Reading.fail offset what >>= rest) holds :=
  Ensures.bind (p := fun _ => False) (ensures_fail offset what) fun _ h => h.elim

theorem ensures_failure_bind {holds : β → Prop} (rest : α → Reading β) :
    Ensures (failure >>= rest) holds :=
  Ensures.bind (p := fun _ => False) ensures_failure fun _ h => h.elim

theorem Ensures.map {rule : Reading α} (f : α → β) {p : α → Prop} {q : β → Prop}
    (h : Ensures rule p) (hf : ∀ a, p a → q (f a)) : Ensures (f <$> rule) q :=
  h.bind fun a ha => ensures_pure (hf a ha)

/-- The second of two alternatives is only tried where the first one misses. -/
theorem Ensures.orElse {rule other : Reading α} {holds : α → Prop} (h : Ensures rule holds)
    (hother : Misses rule → Ensures other holds) : Ensures (rule <|> other) holds := by
  have hrule : Yields rule.run fun outcome =>
      (∀ a ∈ outcome, holds a) ∧ (outcome = none → Misses rule) :=
    fun memory => ⟨h memory, fun hnone => ⟨memory, hnone⟩⟩
  unfold Ensures
  rw [OptionT.run_orElse]
  refine Yields.bind hrule ?_
  rintro outcome ⟨houtcome, hmisses⟩
  cases outcome with
  | none => exact hother (hmisses rfl)
  | some a => exact yields_pure houtcome

theorem ensures_ite {holds : α → Prop} {p : Prop} [Decidable p] {rule other : Reading α}
    (h : p → Ensures rule holds) (hother : ¬ p → Ensures other holds) :
    Ensures (if p then rule else other) holds := by
  split
  · exact h (by assumption)
  · exact hother (by assumption)

theorem Ensures.mono {rule : Reading α} {p q : α → Prop} (h : Ensures rule p)
    (hpq : ∀ a, p a → q a) : Ensures rule q :=
  fun memory a ha => hpq a (h memory a ha)

theorem Ensures.and {rule : Reading α} {p q : α → Prop} (h : Ensures rule p)
    (h' : Ensures rule q) : Ensures rule fun a => p a ∧ q a :=
  fun memory a ha => ⟨h memory a ha, h' memory a ha⟩

theorem Finds.ensures {rule : Reading α} {outcome : Option α} (h : Finds rule outcome) :
    Ensures rule fun a => outcome = some a := by
  intro memory a ha
  rw [← h memory]
  exact ha

theorem Finds.eq_none {rule : Reading α} {outcome : Option α} (h : Finds rule outcome)
    (hm : Misses rule) : outcome = none := by
  obtain ⟨memory, hmemory⟩ := hm
  rw [← h memory]
  exact hmemory

theorem Finds.not_misses {rule : Reading α} {a : α} (h : Finds rule (some a)) : ¬ Misses rule := by
  intro hm
  cases h.eq_none hm

/-- An ordered choice is missed where all its alternatives are. -/
theorem misses_orElse {rule other : Reading α} (h : Misses (rule <|> other)) :
    Misses rule ∧ Misses other := by
  obtain ⟨memory, hmemory⟩ := h
  rw [OptionT.run_orElse] at hmemory
  change (((rule.run.run memory).1.elim other.run fun a => pure (some a)).run
    (rule.run.run memory).2).1 = none at hmemory
  cases hrule : (rule.run.run memory).1 with
  | none =>
    rw [hrule] at hmemory
    exact ⟨⟨memory, hrule⟩, _, hmemory⟩
  | some a =>
    rw [hrule] at hmemory
    cases hmemory

end Judgements

theorem ensures_literal (cs : List Char) (here : Cursor) :
    Ensures (Reading.literal cs here) fun next => here.rest = cs ++ next.rest := by
  unfold Reading.literal
  refine ensures_ite (fun hsees => ensures_pure ?_) fun _ => ensures_fail _ _
  obtain ⟨more, hmore⟩ := List.isPrefixOf_iff_prefix.1 hsees
  simp [← hmore]

/-! ## Literal material -/

/-- What lies before the first occurrence does not hold another one. -/
theorem distanceTo_eq_some {needle cs : List Char} {n : Nat} (hne : needle ≠ [])
    (h : distanceTo? needle cs = some n) :
    ∃ content rest, cs = content ++ (needle ++ rest) ∧ content.length = n ∧
      ¬ needle <:+: content := by
  induction cs generalizing n with
  | nil => simp [distanceTo?, hne] at h
  | cons c cs ih =>
    unfold distanceTo? at h
    split at h
    · next hprefix =>
      obtain ⟨rest, hrest⟩ := List.isPrefixOf_iff_prefix.1 hprefix
      exact ⟨[], rest, hrest.symm, Option.some.inj h, by simpa using hne⟩
    · next hprefix =>
      obtain ⟨m, hm, rfl⟩ := Option.map_eq_some_iff.1 h
      obtain ⟨content, rest, rfl, rfl, hnot⟩ := ih hm
      refine ⟨c :: content, rest, rfl, rfl, ?_⟩
      intro hin
      rcases List.infix_cons_iff.1 hin with hin | hin
      · exact hprefix (List.isPrefixOf_iff_prefix.2 (hin.trans (List.prefix_append _ _)))
      · exact hnot hin

theorem distanceTo_eq_none {needle cs : List Char} (h : distanceTo? needle cs = none) :
    ¬ needle <:+: cs := by
  induction cs with
  | nil =>
    intro hin
    simp [distanceTo?, List.infix_nil.1 hin] at h
  | cons c cs ih =>
    unfold distanceTo? at h
    split at h
    · cases h
    · next hprefix =>
      intro hin
      rcases List.infix_cons_iff.1 hin with hin | hin
      · exact hprefix (List.isPrefixOf_iff_prefix.2 hin)
      · exact ih (Option.map_eq_none_iff.1 h) hin

/-! ## Rules that need no lookahead -/

/-- What was read since `here` is built into a node, which it derives. -/
def Understood (mode : Mode) (here : Cursor) (found : Found) : Prop :=
  ∃ text node, here.rest = text ++ found.1.rest ∧ Node.ofParseTree found.2 = .ok node ∧
    Derives mode text node found.1.rest

/-- What was read since `here` is built into nodes, which it derives. -/
def UnderstoodAll (mode : Mode) (here : Cursor) (found : Cursor × List ParseTree) : Prop :=
  ∃ text nodes, here.rest = text ++ found.1.rest ∧ Node.ofItems found.2 = .ok nodes ∧
    DerivesAll mode text nodes found.1.rest

theorem Cursor.rest_eq_take_append (here : Cursor) (n : Nat) :
    here.rest = here.rest.take n ++ (here.skip n).rest := by simp

theorem Cursor.rest_eq_append {here : Cursor} {xs ys : List Char} {n : Nat}
    (h : here.rest = xs ++ ys) (hn : n = xs.length) : here.rest = xs ++ (here.skip n).rest := by
  rw [rest_skip, h, hn, List.drop_left]

/-- The blanks that are passed over stand before the rest. -/
theorem Cursor.exists_skipBlanks (here : Cursor) :
    ∃ blanks, here.rest = blanks ++ here.skipBlanks.rest ∧ (∀ c ∈ blanks, isBlank c = true) ∧
      ∀ c ∈ here.skipBlanks.rest.head?, isBlank c = false := by
  rw [here.rest_skipBlanks]
  refine ⟨here.rest.takeWhile isBlank, List.takeWhile_append_dropWhile.symm,
    fun c hc => List.mem_takeWhile_imp hc, ?_⟩
  intro c hc
  have hhead := List.head?_dropWhile_not isBlank here.rest
  rw [Option.mem_def.1 hc] at hhead
  simpa using hhead

/-- What comes next takes blanks along. -/
def Cursor.Pads (here : Cursor) : Prop := ∃ c, here.peek = some c ∧ takesBlanks c = true

/-- In math, blanks before what was understood may be passed over. -/
theorem Understood.of_skipBlanks {here : Cursor} {found : Found} (hp : here.skipBlanks.Pads)
    (h : Understood .math here.skipBlanks found) : Understood .math here found := by
  obtain ⟨blanks, hblanks, hb, -⟩ := here.exists_skipBlanks
  obtain ⟨text, node, htext, hnode, hderives⟩ := h
  have hhead : ∃ c ∈ (text ++ ([] ++ found.1.rest)).head?, takesBlanks c = true := by
    rw [List.nil_append, ← htext]
    exact hp
  refine ⟨blanks ++ text ++ [], node, ?_, hnode, .padded blanks [] hb (by simp) hhead hderives⟩
  simp [hblanks, htext]

/-- In math, blanks behind what was understood may be passed over. -/
theorem Understood.skipBlanks {here stop : Cursor} {tree : ParseTree} (hp : here.Pads)
    (h : Understood .math here (stop, tree)) : Understood .math here (stop.skipBlanks, tree) := by
  obtain ⟨blanks, hblanks, hb, -⟩ := stop.exists_skipBlanks
  obtain ⟨text, node, htext, hnode, hderives⟩ := h
  dsimp only at htext hderives
  rw [hblanks] at htext hderives
  have hhead : ∃ c ∈ (text ++ (blanks ++ stop.skipBlanks.rest)).head?, takesBlanks c = true := by
    rw [← htext]
    exact hp
  refine ⟨[] ++ text ++ blanks, node, ?_, hnode, .padded [] blanks (by simp) hb hhead hderives⟩
  simp [htext]

section Rules

variable {mode : Mode} {here : Cursor}

theorem understood_readText {n : Nat} (hn : n ≠ 0) (hrest : here.rest ≠ [])
    (hcut : Cut mode (here.rest.take n) (here.rest.drop n)) :
    Understood mode here (here.readText n) := by
  refine ⟨here.rest.take n, .string (String.ofList (here.rest.take n)), here.rest_eq_take_append n,
    by simp [Cursor.readText, ParseTree.chars, Node.ofParseTree], ?_⟩
  have hderives : Derives mode (String.ofList (here.rest.take n)).toList
      (.string (String.ofList (here.rest.take n))) (here.rest.drop n) := by
    refine .string _ (by simp [hn, hrest]) ?_
    rwa [String.toList_ofList]
  rwa [String.toList_ofList] at hderives

theorem understood_readBlanks {n : Nat} {kind : RecordKind} (hrest : here.rest ≠ [])
    (hkind : kind = .whitespace ∨ kind = .parbreak)
    (hblank : ∀ c ∈ here.rest.take n, isBlank c = true) :
    ∀ found ∈ here.readBlanks? n kind, Understood mode here found := by
  intro found hfound
  rw [Cursor.readBlanks?] at hfound
  split at hfound
  · cases hfound
  · next hn =>
    cases hfound
    have hne : here.rest.take n ≠ [] := by simpa [hrest] using hn
    rcases hkind with rfl | rfl
    · exact ⟨_, .whitespace, here.rest_eq_take_append n, rfl, .space hne hblank rfl⟩
    · exact ⟨_, .parbreak, here.rest_eq_take_append n, rfl, .space hne hblank rfl⟩

/-- A comment after blanks that belong to it. -/
theorem understood_commentBody {there : Cursor} {blanks : List Char}
    (hthere : here.rest = blanks ++ there.rest) (hb : ∀ c ∈ blanks, isBlank c = true)
    (hpeek : there.peek = some '%') (sameline : Bool) :
    Understood mode here (commentBody there sameline) := by
  obtain ⟨more, hmore⟩ := Cursor.rest_ne_nil_of_peek hpeek
  unfold commentBody
  dsimp only
  rw [show there.rest.drop 1 = more by simp [hmore]]
  generalize hcontent : more.takeWhile (!isLineBreak ·) = content
  have hline : ∀ c ∈ content, isLineBreak c = false := by
    intro c hc
    rw [← hcontent] at hc
    simpa using List.mem_takeWhile_imp hc
  have hstop : there.rest = '%' :: content ++ (there.skip (content.length + 1)).rest := by
    have htake : more.take content.length = content := by
      rw [← hcontent]
      exact take_runLength _ _
    have hsplit := List.take_append_drop content.length more
    rw [htake] at hsplit
    rw [Cursor.rest_skip, hmore, List.drop_succ_cons, List.cons_append, hsplit]
  generalize there.skip (content.length + 1) = stop at hstop ⊢
  -- the line ending behind the comment is one more stretch of blanks
  have hbody : ∀ (ending : List Char) (next : Cursor), stop.rest = ending ++ next.rest →
      (∀ c ∈ ending, isBlank c = true) → Understood mode here
        (next, .record .comment none (some (.chars content)) none sameline none) := by
    intro ending next hnext hending
    have hderives : Derives mode (blanks ++ '%' :: (String.ofList content).toList ++ ending)
        (.comment (String.ofList content) sameline) next.rest :=
      .comment blanks ending hb hending _ sameline (by simpa using hline)
    refine ⟨_, _, ?_, rfl, hderives⟩
    simp [hthere, hstop, hnext]
  split
  · exact hbody _ _ (stop.rest_eq_take_append _) fun _ => isBlank_of_mem_lineEnding
  · exact hbody [] stop rfl (by simp)

theorem understood_comment : ∀ found ∈ comment? here, Understood mode here found := by
  intro found hfound
  simp only [comment?] at hfound
  split at hfound
  · next there hfilter =>
    obtain ⟨hthere, hpeek⟩ := Option.filter_eq_some_iff.1 hfilter
    obtain rfl := Option.some.inj hfound
    rw [beq_iff_eq] at hpeek
    -- the comment stands after a line ending, or after the spaces of a fresh line
    split at hthere
    · obtain rfl := Option.some.inj hthere
      exact understood_commentBody (here.rest_eq_take_append _) (fun _ => isBlank_of_mem_around)
        hpeek false
    · split at hthere
      · obtain rfl := Option.some.inj hthere
        exact understood_commentBody (here.rest_eq_take_append _) (fun _ => isBlank_of_mem_spaces)
          hpeek false
      · cases hthere
  · split at hfound
    · next hpeek =>
      obtain rfl := Option.some.inj hfound
      exact understood_commentBody (List.nil_append _).symm (by simp) (by simpa using hpeek) true
    · cases hfound

theorem understood_verb : ∀ found ∈ verb? here, Understood mode here found := by
  intro found hfound
  unfold verb? at hfound
  split at hfound
  · cases hfound
  · next hsees =>
    rw [Bool.not_eq_true', Bool.not_eq_false] at hsees
    obtain ⟨more, hmore⟩ := List.isPrefixOf_iff_prefix.1 hsees
    split at hfound
    · cases hfound
    · next delimiter body hbody =>
      split at hfound
      · cases hfound
      · next hdelimiter =>
        obtain ⟨length, hlength, rfl⟩ := Option.map_eq_some_iff.1 hfound
        obtain ⟨content, rest, rfl, rfl, hnot⟩ := distanceTo_eq_some (by simp) hlength
        obtain ⟨hl, hw⟩ : isLetter delimiter = false ∧ Text.isWhiteSpace delimiter = false := by
          simpa using hdelimiter
        refine ⟨['\\', 'v', 'e', 'r', 'b'] ++ delimiter :: content ++ [delimiter],
          .verb delimiter (String.ofList content), ?_, ?_, ?_⟩
        · rw [← hmore] at hbody
          have hrest : here.rest
              = (['\\', 'v', 'e', 'r', 'b'] ++ delimiter :: content ++ [delimiter]) ++ rest := by
            rw [← hmore, show more = _ from hbody]
            simp
          apply Cursor.rest_eq_append hrest
          simp only [List.length_append, List.length_cons, List.length_nil]
          omega
        · rw [List.take_left]
          rfl
        · nth_rewrite 1 [← String.toList_ofList (l := content)]
          refine .verb delimiter (String.ofList content) hl hw ?_
          rw [String.toList_ofList]
          intro hmem
          exact hnot ((List.singleton_infix_iff _ _).2 hmem)

/-- An environment that is kept as it is ends at the first tag that closes it. Only
a block comment takes blanks behind it along. -/
theorem ensures_literalEnvironment (name : String) (kind : RecordKind) (build : String → Node)
    (hbuild : ∀ content,
      Node.ofParseTree (.literal kind content) = .ok (build (String.ofList content)))
    (hderives : ∀ (content : String) (after rest : List Char),
      ¬ closingTag name <:+: content.toList → (∀ c ∈ after, isBlank c = true) →
      (kind ≠ .commentEnvironment → after = []) →
      Derives mode (openingTag name ++ content.toList ++ closingTag name ++ after) (build content)
        rest) :
    Ensures (literalEnvironment name kind here) (Understood mode here) := by
  unfold literalEnvironment
  refine ensures_ite (fun _ => ensures_failure) ?_
  intro hsees
  rw [Bool.not_eq_true', Bool.not_eq_false] at hsees
  obtain ⟨body, hbody⟩ := List.isPrefixOf_iff_prefix.1 hsees
  rw [show here.rest.drop (beginTag name.toList).length = body by rw [← hbody, List.drop_left]]
  dsimp only
  split
  · exact ensures_fail _ _
  · next length hlength =>
    obtain ⟨content, rest, rfl, rfl, hnot⟩ := distanceTo_eq_some (by simp [endTag]) hlength
    have hrest : here.rest
        = (beginTag name.toList ++ content ++ endTag name.toList) ++ rest := by simp [← hbody]
    have hlength : (beginTag name.toList).length + content.length + (endTag name.toList).length
        = (beginTag name.toList ++ content ++ endTag name.toList).length := by
      simp only [List.length_append]
    have hstop := Cursor.rest_eq_append hrest hlength
    rw [List.take_left]
    generalize here.skip _ = stop at hstop ⊢
    have hliteral : ∀ (after : List Char) (next : Cursor), stop.rest = after ++ next.rest →
        (∀ c ∈ after, isBlank c = true) → (kind ≠ .commentEnvironment → after = []) →
        Understood mode here (next, .literal kind content) := by
      intro after next hnext hafter hkind
      have hcontent := hderives (String.ofList content) after next.rest
        (by rwa [String.toList_ofList]) hafter hkind
      refine ⟨_, _, ?_, hbuild content, hcontent⟩
      rw [hstop, hnext, String.toList_ofList]
      simp [openingTag, closingTag, beginTag, endTag]
    apply ensures_pure
    split
    · next hkind =>
      refine hliteral _ _ (stop.rest_eq_take_append _) (fun _ => isBlank_of_mem_lineEnding) ?_
      exact fun hne => absurd (beq_iff_eq.1 hkind) hne
    · exact hliteral [] stop rfl (by simp) fun _ => rfl

/-- An environment that is to be kept as it is can only be missed where nothing
closes it. -/
theorem not_infix_of_misses {name : String} {kind : RecordKind} {body : List Char}
    (h : Misses (literalEnvironment name kind here))
    (hrest : here.rest = beginTag name.toList ++ body) : ¬ endTag name.toList <:+: body := by
  have hsees : here.sees (beginTag name.toList) = true := by
    rw [Cursor.sees, hrest, List.isPrefixOf_iff_prefix]
    exact List.prefix_append _ _
  unfold literalEnvironment at h
  dsimp only at h
  rw [hsees, hrest, List.drop_left] at h
  cases hdistance : distanceTo? (endTag name.toList) body with
  | none => exact distanceTo_eq_none hdistance
  | some length =>
    rw [hdistance] at h
    exact absurd h (finds_pure _).not_misses

theorem cut_word {mode : Mode} (hmode : mode ≠ .math) {cs : List Char} {n : Nat}
    (h : wordLength cs = n) : Cut mode (cs.take n) (cs.drop n) := by
  have hlength : (cs.take n).length = n := by
    have hle := wordLength_le cs
    rw [List.length_take]
    omega
  cases mode with
  | math => exact absurd rfl hmode
  | text | arguments =>
    refine Or.inr (Or.inr ⟨fun c hc => word_of_mem_take (h ▸ hc), ?_⟩)
    rw [List.take_append_drop, hlength, h]

theorem ensures_word (hmode : mode ≠ .math) (hnumber : numberLength here.rest = 0) (inner : Mode) :
    Ensures (word inner here) (Understood mode here) := by
  unfold word
  split
  · exact ensures_fail _ _
  · next c hpeek =>
    obtain ⟨more, hmore⟩ := Cursor.rest_ne_nil_of_peek hpeek
    have hne : here.rest ≠ [] := by simp [hmore]
    have hlength : wordLength here.rest
        = if isPunctuation c then 1 else runLength isPlain here.rest := by
      rw [wordLength.eq_def, if_pos hnumber, hmore]
    refine ensures_ite (fun _ => ensures_failure) fun _ => ensures_ite (fun hc => ?_) fun hc =>
      ensures_ite (fun hp => ?_) fun _ => ensures_fail _ _
    · rw [if_pos hc] at hlength
      exact ensures_pure (understood_readText (by decide) hne (cut_word hmode hlength))
    · rw [if_neg hc] at hlength
      refine ensures_pure (understood_readText ?_ hne (cut_word hmode hlength))
      simp [runLength, hmore, hp]

theorem ensures_mathChar (hblank : ∀ c ∈ here.peek, isBlank c = false)
    (htakes : ∀ c ∈ here.peek, takesBlanks c = false ∨ endsMath c = true) :
    Ensures (mathChar here) (Understood .math here) := by
  unfold mathChar
  split
  · exact ensures_fail _ _
  · next c hpeek =>
    obtain ⟨more, hmore⟩ := Cursor.rest_ne_nil_of_peek hpeek
    have hne : here.rest ≠ [] := by simp [hmore]
    refine ensures_ite (fun _ => ensures_fail _ _) fun hends => ?_
    have hchar : c = '\x00' ∨ isMathChar c = true := by
      have hno := (htakes c hpeek).resolve_right hends
      simp only [takesBlanks, Bool.or_eq_false_iff, beq_eq_false_iff_ne] at hno
      by_cases hnull : c = '\x00'
      · exact Or.inl hnull
      · exact Or.inr (isMathChar_iff.2 ⟨hblank c hpeek, hnull, by simpa using hends, hno.1.1.1.2,
          hno.1.1.2, hno.1.2, hno.2⟩)
    refine ensures_pure (understood_readText (by decide) hne ?_)
    rw [hmore]
    exact ⟨c, rfl, Or.inr (Or.inr hchar)⟩

/-- The opening tag of an environment is passed over, and its name has no
brace. -/
theorem ensures_environmentName (hbegin : seesBegin here = true) :
    Ensures (environmentName here) fun found =>
      here.rest = openingTag (String.ofList found.2) ++ found.1.rest ∧
        IsTagName (String.ofList found.2) := by
  obtain ⟨more, hmore⟩ := List.isPrefixOf_iff_prefix.1 hbegin
  unfold environmentName
  refine (ensures_literal ['{'] (here.skip 6)).bind ?_
  intro opened hopened
  dsimp only
  generalize hname : opened.rest.takeWhile (fun c => c != '}' && c != '{') = name
  refine (ensures_literal ['}'] (opened.skip name.length)).bind ?_
  intro next hnext
  apply ensures_pure
  have hsplit : opened.rest = name ++ (opened.skip name.length).rest := by
    have htake : opened.rest.take name.length = name := by
      rw [← hname]
      exact take_runLength _ _
    have h := opened.rest_eq_take_append name.length
    rwa [htake] at h
  constructor
  · rw [← hmore, show more = (here.skip 6).rest by rw [Cursor.rest_skip, ← hmore]; rfl, hopened,
      hsplit, hnext]
    simp [openingTag]
  · intro c hc
    rw [String.toList_ofList, ← hname] at hc
    have hnot := List.mem_takeWhile_imp hc
    simp only [Bool.and_eq_true, bne_iff_ne] at hnot
    exact ⟨hnot.2, hnot.1⟩

/-! ## Rules for nested material -/

/-- Whatever is read further ahead, running constructs anew, is understood. -/
structure Ahead.Understands (ahead : Ahead) : Prop where
  fresh : ahead.retrieve = Retrieval.fresh
  sequence : ∀ mode stop there, Yields (ahead.sequence mode stop there) (UnderstoodAll mode there)
  token : ∀ mode there, Ensures (ahead.token mode there) (Understood mode there)

variable {ahead : Ahead}

/-- A sequence and what closes it. -/
theorem Ahead.Understands.enclosed (hl : ahead.Understands) (inner : Mode) (closing : List Char)
    (build : List ParseTree → ParseTree) {holds : Found → Prop}
    (hp : ∀ next items text body, here.rest = text ++ closing ++ next.rest →
      Node.ofItems items = .ok body → DerivesAll inner text body (closing ++ next.rest) →
      holds (next, build items)) :
    Ensures (do
      let (stop, items) ← ahead.sequence inner (some closing) here
      let next ← Reading.literal closing stop
      return (next, build items)) holds := by
  refine (hl.sequence inner (some closing) here).lift.bind ?_
  rintro ⟨stop, items⟩ ⟨text, body, hrest, hitems, hderives⟩
  refine (ensures_literal closing stop).bind ?_
  intro next hnext
  dsimp only at hrest hderives
  rw [hnext] at hrest hderives
  refine ensures_pure (hp next items text body ?_ hitems hderives)
  rw [hrest, List.append_assoc]

theorem ensures_group (hl : ahead.Understands) :
    Ensures (group ahead here) (Understood mode here) := by
  unfold group
  refine ensures_ite (fun _ => ensures_failure) ?_
  intro hpeek
  obtain ⟨more, hmore⟩ := Cursor.rest_ne_nil_of_peek (by simpa using hpeek)
  rw [hl.fresh]
  refine hl.enclosed .text ['}'] (.enclosing .group) ?_
  intro next items text body hrest hitems hderives
  refine ⟨'{' :: text ++ ['}'], .group body, ?_, ?_, .group hderives⟩
  · rw [hmore, show more = (here.skip 1).rest by simp [hmore], hrest]
    rfl
  · simp only [ParseTree.enclosing, Node.ofParseTree, Node.ofContent, hitems]
    rfl

theorem ensures_delimitedMath (hl : ahead.Understands) (delimiter : MathDelimiter) :
    Ensures (delimitedMath ahead delimiter here) (Understood mode here) := by
  unfold delimitedMath
  refine ensures_ite (fun _ => ensures_failure) ?_
  intro hsees
  rw [Bool.not_eq_true', Bool.not_eq_false] at hsees
  obtain ⟨more, hmore⟩ := List.isPrefixOf_iff_prefix.1 hsees
  rw [hl.fresh]
  refine hl.enclosed .math delimiter.closing (.enclosing delimiter.kind) ?_
  intro next items text body hrest hitems hderives
  refine ⟨_, delimiter.node body, ?_, ?_, .math delimiter hderives⟩
  · rw [Cursor.rest_eq_append hmore.symm rfl, hrest]
    simp
  · cases delimiter with
    | dollar | dollars | parentheses | brackets =>
      simp only [ParseTree.enclosing, MathDelimiter.kind, Node.ofParseTree, Node.ofContent, hitems]
      rfl

/-- What was read since `here` is built into optional arguments, which it
derives. -/
def UnderstoodArgs (here : Cursor) (found : Cursor × Option ParseTree) : Prop :=
  ∃ text args, here.rest = text ++ found.1.rest ∧ Node.ofArgs found.2 = .ok args ∧
    DerivesArgs text args found.1.rest

theorem ensures_optionalArguments (hl : ahead.Understands) :
    Ensures (optionalArguments ahead here) (UnderstoodArgs here) := by
  unfold optionalArguments
  refine Ensures.orElse ?_ fun _ => ensures_pure ⟨[], none, rfl, rfl, .none⟩
  refine Ensures.map (p := fun found => UnderstoodArgs here (found.1, some found.2)) _ ?_
    fun _ h => h
  have hblanks := here.rest_eq_take_append (whitespaceLength here.rest)
  have hblank : ∀ c ∈ here.rest.take (whitespaceLength here.rest), isBlank c = true :=
    fun _ => isBlank_of_mem_whitespace
  unfold argumentList
  dsimp only
  generalize here.skip (whitespaceLength here.rest) = there at hblanks ⊢
  generalize here.rest.take (whitespaceLength here.rest) = blanks at hblanks hblank
  refine ensures_ite (fun _ => ensures_failure) ?_
  intro hpeek
  obtain ⟨more, hmore⟩ := Cursor.rest_ne_nil_of_peek (by simpa using hpeek)
  rw [hl.fresh]
  refine hl.enclosed .arguments [']'] (.enclosing .arguments) ?_
  intro next items text body hrest hitems hderives
  refine ⟨_, some body, ?_, ?_, .some blanks hblank hderives⟩
  · rw [hblanks, hmore, show more = (there.skip 1).rest by simp [hmore], hrest]
    simp
  · simp only [Node.ofArgs, ParseTree.enclosing, Node.ofParseTree, Node.ofContent, hitems]
    rfl

/-- The letters at a place, or the one other character there, are a name. -/
theorem isControlName_of_length {cs : List Char} (hpos : commandNameLength cs ≠ 0)
    (hb : String.ofList (cs.take (commandNameLength cs)) ≠ "begin")
    (he : String.ofList (cs.take (commandNameLength cs)) ≠ "end") :
    IsControlName (String.ofList (cs.take (commandNameLength cs))) := by
  cases cs with
  | nil => exact absurd rfl hpos
  | cons c cs =>
    simp only [commandNameLength] at *
    split
    · next hc =>
      rw [if_pos hc] at hb he
      refine Or.inl ⟨?_, ?_, hb, he⟩
      · intro hempty
        have hlist := congrArg String.toList hempty
        simp [take_runLength, hc] at hlist
      · intro d hd
        rw [String.toList_ofList, take_runLength] at hd
        exact List.mem_takeWhile_imp hd
    · next hc => exact Or.inr ⟨c, by simp, by simpa using hc⟩

/-- No letter follows a name of letters. -/
theorem isLetter_of_drop_name {cs : List Char}
    (h : ∀ c ∈ cs.take (commandNameLength cs), isLetter c = true) :
    ∀ c ∈ (cs.drop (commandNameLength cs)).head?, isLetter c = false := by
  cases cs with
  | nil => simp
  | cons c cs =>
    simp only [commandNameLength] at h ⊢
    split at h
    · next hc =>
      rw [if_pos hc]
      obtain ⟨run, rest, hsplit, hrun, hrest⟩ := exists_run isLetter (c :: cs)
      rw [hsplit, runLength_all_append hrun hrest, List.drop_left]
      exact hrest
    · next hc => exact absurd (h c (by simp)) hc

theorem ensures_command (hl : ahead.Understands) :
    Ensures (command ahead here) (Understood mode here) := by
  unfold command
  refine ensures_ite (fun _ => ensures_failure) ?_
  intro hpeek
  obtain ⟨more, hmore⟩ := Cursor.rest_ne_nil_of_peek (by simpa using hpeek)
  have hstart : (here.skip 1).rest = more := by simp [hmore]
  have hname : here.rest = '\\' :: more.take (commandNameLength more)
      ++ ((here.skip 1).skip (commandNameLength more)).rest := by
    rw [List.cons_append, Cursor.rest_skip, hstart, List.take_append_drop, hmore]
  dsimp only
  rw [hstart]
  refine ensures_ite (fun _ => ensures_fail_bind _ _ _) ?_
  intro hpos
  refine ensures_ite (fun _ => ensures_failure_bind _) ?_
  intro hreserved
  simp only [Bool.or_eq_true, beq_iff_eq, not_or] at hreserved
  refine (ensures_optionalArguments hl).bind ?_
  rintro ⟨next, args⟩ ⟨text, nodes, hrest, hargs, hderives⟩
  dsimp only at hrest hargs hderives
  have hcontrol := isControlName_of_length (by simpa using hpos) hreserved.1 hreserved.2
  refine ensures_pure ⟨_, .command _ nodes, ?_, ?_, .command _ hcontrol ?_ hderives⟩
  · rw [String.toList_ofList, hname, hrest, List.append_assoc]
  · simp only [Node.ofParseTree, hargs]
    rfl
  · intro hletters
    rw [String.toList_ofList] at hletters
    rw [← hrest, Cursor.rest_skip, hstart]
    exact isLetter_of_drop_name hletters

theorem closingTag_ofList (name : List Char) : closingTag (String.ofList name) = endTag name := by
  rw [closingTag, endTag, String.toList_ofList]

theorem ensures_mathEnvironment (hl : ahead.Understands) :
    Ensures (mathEnvironment ahead here) (Understood mode here) := by
  unfold mathEnvironment
  refine ensures_ite (fun _ => ensures_failure) ?_
  intro hbegin
  rw [Bool.not_eq_true', Bool.not_eq_false] at hbegin
  rw [hl.fresh]
  refine (ensures_environmentName hbegin).bind ?_
  rintro ⟨opened, name⟩ ⟨hopened, hname⟩
  refine ensures_ite (fun _ => ensures_failure_bind _) ?_
  intro hmath
  rw [Bool.not_eq_true', Bool.not_eq_false] at hmath
  refine hl.enclosed .math (endTag name) (fun items => .record .mathEnvironment
    (some (String.ofList name)) (some (.list items)) none false none) ?_
  intro next items text body hrest hitems hderives
  rw [← closingTag_ofList] at hrest hderives
  refine ⟨_, .mathEnvironment _ body, ?_, ?_, .mathEnvironment _ hname hmath hderives⟩
  · dsimp only at hopened
    rw [hopened, hrest]
    simp
  · simp only [Node.ofParseTree, Node.ofContent, hitems]
    rfl

/-- An environment that the rules for literal material have missed has another
name than theirs: its own end would have closed it for them. -/
theorem ensures_environment (hl : ahead.Understands)
    (hv : Misses (literalEnvironment verbatimName .verbatim here))
    (hc : Misses (literalEnvironment commentName .commentEnvironment here)) :
    Ensures (environment ahead here) (Understood mode here) := by
  unfold environment
  refine ensures_ite (fun _ => ensures_failure) ?_
  intro hbegin
  rw [Bool.not_eq_true', Bool.not_eq_false] at hbegin
  rw [hl.fresh]
  refine (ensures_environmentName hbegin).bind ?_
  rintro ⟨opened, name⟩ ⟨hopened, hname⟩
  refine (ensures_optionalArguments hl).bind ?_
  rintro ⟨start, args⟩ ⟨front, nodes, hfront, hargs, hderivesArgs⟩
  refine hl.enclosed .text (endTag name) (fun items => .record .environment
    (some (String.ofList name)) (some (.list items)) args false none) ?_
  intro next items text body hrest hitems hderives
  dsimp only at hopened hfront hargs hderivesArgs
  rw [← closingTag_ofList] at hrest hderives
  rw [hrest] at hfront hderivesArgs
  have hclosed : here.rest = openingTag (String.ofList name)
      ++ (front ++ text ++ closingTag (String.ofList name) ++ next.rest) := by
    rw [hopened, hfront]
    simp
  have hne : ∀ (other : String) (kind : RecordKind),
      Misses (literalEnvironment other kind here) → String.ofList name ≠ other := by
    rintro other kind hmisses rfl
    exact not_infix_of_misses hmisses hclosed ⟨front ++ text, next.rest, rfl⟩
  refine ⟨_, .environment _ nodes body, ?_, ?_,
    .environment _ hname (hne _ _ hv) (hne _ _ hc) hderivesArgs hderives⟩
  · rw [hclosed]
    simp
  · simp only [Node.ofParseTree, Node.ofContent, hitems, hargs]
    rfl

theorem ensures_opened (hl : ahead.Understands) :
    Ensures (opened ahead here) (Understood mode here) := by
  unfold opened
  split
  · exact ensures_delimitedMath hl .dollars
  · refine (ensures_ofOption understood_verb).orElse fun _ => ?_
    refine Ensures.orElse (ensures_literalEnvironment verbatimName .verbatim .verbatim
      (fun _ => rfl) ?_) fun hv => ?_
    · intro content after rest hcontent _ hafter
      rw [hafter (by decide), List.append_nil]
      exact .verbatim content hcontent
    refine Ensures.orElse (ensures_literalEnvironment commentName .commentEnvironment
      .commentEnvironment (fun _ => rfl) ?_) fun hc => ?_
    · intro content after rest hcontent hafter _
      exact .commentEnvironment after hafter content hcontent
    refine (ensures_delimitedMath hl .brackets).orElse fun _ => ?_
    refine (ensures_delimitedMath hl .parentheses).orElse fun _ => ?_
    exact (ensures_mathEnvironment hl).orElse fun _ => ensures_environment hl hv hc
  · exact ensures_failure

/-- What is understood where no blank stands is no space. -/
theorem Understood.not_isSpace {found : Found} (h : Understood mode here found)
    (hblank : ∀ c ∈ here.rest.head?, isBlank c = false) :
    ∃ text node, here.rest = text ++ found.1.rest ∧ Node.ofParseTree found.2 = .ok node ∧
      node.isSpace = false ∧ Derives mode text node found.1.rest := by
  obtain ⟨text, node, hrest, hnode, hderives⟩ := h
  refine ⟨text, node, hrest, hnode, ?_, hderives⟩
  cases hspace : node.isSpace with
  | false => rfl
  | true =>
    obtain ⟨hne, hall⟩ := hderives.isBlank_of_isSpace hspace
    obtain ⟨c, more, rfl⟩ := List.exists_cons_of_ne_nil hne
    have hc := hblank c (by simp [hrest])
    rw [hall c (by simp)] at hc
    cases hc

theorem ensures_scriptBase (hl : ahead.Understands) :
    Ensures (scriptBase ahead here) (Understood .math here) := by
  unfold scriptBase
  split
  · exact ensures_failure
  · refine ensures_ite (fun _ => ensures_failure) fun _ => ensures_ite (fun _ => ?_) fun _ => ?_
    · exact ensures_group hl
    · exact hl.token .math here

theorem scriptKind_eq_some {c : Char} {kind : RecordKind} (h : scriptKind? c = some kind) :
    ∃ mark : Mark, c = mark.char ∧ ∀ base, Node.ofParseTree (.record kind none base none false none)
      = .script mark <$> Node.ofBase base := by
  unfold scriptKind? at h
  split at h
  · cases h
    refine ⟨.sup, rfl, fun base => ?_⟩
    simp only [Node.ofParseTree]
    rfl
  · cases h
    refine ⟨.sub, rfl, fun base => ?_⟩
    simp only [Node.ofParseTree]
    rfl
  · cases h

theorem ensures_script (hl : ahead.Understands) :
    Ensures (script ahead here) (Understood mode here) := by
  unfold script
  split
  · exact ensures_failure
  · next kind hkind =>
    obtain ⟨c, hpeek, hkind⟩ := Option.bind_eq_some_iff.1 hkind
    obtain ⟨mark, rfl, hbuild⟩ := scriptKind_eq_some hkind
    obtain ⟨more, hmore⟩ := Cursor.rest_ne_nil_of_peek hpeek
    have hafter : here.rest = mark.char :: (here.skip 1).rest := by simp [hmore]
    generalize here.skip 1 = after at hafter
    dsimp only
    refine Ensures.bind (p := fun base => ∀ found ∈ base, Understood .math after.skipBlanks found)
      ?_ ?_
    · refine ((ensures_scriptBase hl).map some ?_).orElse fun _ => ensures_pure (by simp)
      intro found hfound
      simpa using hfound
    · intro base hbase
      cases base with
      | none =>
        refine ensures_pure ⟨[mark.char], .script mark none, hafter, ?_, .script mark .none⟩
        exact hbuild none
      | some found =>
        obtain ⟨next, content⟩ := found
        obtain ⟨blanks, hblanks, hb, hnext⟩ := after.exists_skipBlanks
        obtain ⟨text, node, hrest, hnode, hspace, hderives⟩ := (hbase _ rfl).not_isSpace hnext
        refine ensures_pure ⟨mark.char :: (blanks ++ text), .script mark (some node), ?_, ?_,
          .script mark (.some blanks hb hspace hderives)⟩
        · dsimp only at hrest
          rw [hafter, hblanks, hrest]
          simp
        · simp only [hbuild, Node.ofBase, hnode]
          rfl

/-! ## Tokens and sequences -/

theorem ensures_textToken (hl : ahead.Understands) (hmode : mode ≠ .math) (inner : Mode) :
    Ensures (textToken ahead inner here) (Understood mode here) := by
  unfold textToken
  refine (ensures_group hl).orElse fun _ => (ensures_delimitedMath hl .dollar).orElse fun _ => ?_
  split
  · exact ensures_failure
  · next c hpeek =>
    obtain ⟨more, hmore⟩ := Cursor.rest_ne_nil_of_peek hpeek
    have hne : here.rest ≠ [] := by simp [hmore]
    refine ensures_ite (fun hc => ?_) fun _ => ?_
    · -- marks that stand for themselves
      have hcut : Cut mode (here.rest.take 1) (here.rest.drop 1) := by
        simp only [Bool.or_eq_true, beq_iff_eq] at hc
        rw [hmore]
        rcases hc with rfl | rfl
        · cases mode <;> simp [Cut] at hmode ⊢
        · cases mode <;> simp [Cut] at hmode ⊢
      exact ensures_pure (understood_readText (by decide) hne hcut)
    have hparbreak : ∀ c ∈ here.rest.take (parbreakLength here.rest), isBlank c = true := by
      intro c hc
      unfold parbreakLength at hc
      split at hc
      · rw [blankLength, take_runLength] at hc
        exact List.mem_takeWhile_imp hc
      · simp at hc
    refine (ensures_ofOption (understood_readBlanks hne (Or.inr rfl) hparbreak)).orElse fun _ => ?_
    refine (ensures_script hl).orElse fun _ => ?_
    refine Ensures.orElse (ensures_ite (fun _ => ensures_failure) fun hn => ?_) fun hmisses => ?_
    · have hn : numberLength here.rest ≠ 0 := by simpa using hn
      have hlength : wordLength here.rest = numberLength here.rest := by
        rw [wordLength.eq_def, if_neg hn]
      exact ensures_pure (understood_readText hn hne (cut_word hmode hlength))
    refine (ensures_ofOption (understood_readBlanks hne (Or.inl rfl) ?_)).orElse fun _ => ?_
    · exact fun _ => isBlank_of_mem_whitespace
    -- a word is only read where there is no number
    have hnumber : numberLength here.rest = 0 := by
      by_contra hn
      rw [if_neg (by simpa using hn)] at hmisses
      exact (finds_pure _).not_misses hmisses
    exact ensures_word hmode hnumber inner

theorem isBlank_of_misses {kind : RecordKind} (h : Misses (Reading.ofOption
    (here.readBlanks? (whitespaceLength here.rest) kind))) :
    ∀ c ∈ here.peek, isBlank c = false := by
  intro c hpeek
  obtain ⟨more, hmore⟩ := Cursor.rest_ne_nil_of_peek hpeek
  refine isBlank_of_whitespaceLength (?_ : whitespaceLength (c :: more) = 0)
  by_contra hn
  rw [hmore, Cursor.readBlanks?, if_neg (by simpa using hn)] at h
  exact (finds_pure _).not_misses h

theorem Cursor.peek_skipBlanks {c : Char} (h : here.peek = some c) (hb : isBlank c = false) :
    here.skipBlanks.peek = some c := by
  obtain ⟨more, hmore⟩ := rest_ne_nil_of_peek h
  rw [peek, here.rest_skipBlanks, hmore]
  simp [hb]

theorem ensures_mathToken (hl : ahead.Understands) :
    Ensures (mathToken ahead here) (Understood .math here) := by
  unfold mathToken
  -- the marks that stand for themselves, with the blanks around them
  have hmark : ∀ c, here.skipBlanks.peek = some c → c = '&' ∨ c = '#' →
      Understood .math here ((here.skipBlanks.skip 1).skipBlanks, .chars [c]) := by
    intro c hpeek hc
    have hpads : here.skipBlanks.Pads := ⟨c, hpeek, by rcases hc with rfl | rfl <;> rfl⟩
    obtain ⟨more, hmore⟩ := Cursor.rest_ne_nil_of_peek hpeek
    have hne : here.skipBlanks.rest ≠ [] := by simp [hmore]
    have hcut : Cut .math (here.skipBlanks.rest.take 1) (here.skipBlanks.rest.drop 1) := by
      rw [hmore]
      exact ⟨c, rfl, by tauto⟩
    have hread := understood_readText (by decide) hne hcut
    rw [Cursor.readText, hmore] at hread
    exact (hread.skipBlanks hpads).of_skipBlanks hpads
  have hgroup : Ensures (group ahead here.skipBlanks) fun found =>
      here.skipBlanks.Pads ∧ Understood .math here.skipBlanks found := by
    by_cases hpeek : here.skipBlanks.peek = some '{'
    · exact (ensures_group hl).mono fun _ h => ⟨⟨'{', hpeek, rfl⟩, h⟩
    · rw [group, if_pos (by simpa using hpeek)]
      exact ensures_failure
  refine Ensures.orElse (hgroup.map _ ?_) fun _ => ?_
  · rintro ⟨next, content⟩ ⟨hpads, hfound⟩
    exact (hfound.skipBlanks hpads).of_skipBlanks hpads
  · split
    · next hpeek => exact ensures_pure (hmark '&' hpeek (Or.inl rfl))
    · next hpeek => exact ensures_pure (hmark '#' hpeek (Or.inr rfl))
    · next hpeek => exact (ensures_script hl).mono fun _ h => h.of_skipBlanks ⟨'^', hpeek, rfl⟩
    · next hpeek => exact (ensures_script hl).mono fun _ h => h.of_skipBlanks ⟨'_', hpeek, rfl⟩
    · next hand hhash hsup hsub =>
      refine Ensures.orElse (ensures_ofOption ?_) fun hmisses => ?_
      · by_cases hne : here.rest = []
        · simp [hne, Cursor.readBlanks?, whitespaceLength, spaceLength, runLength, lineEndingLength]
        · exact understood_readBlanks hne (Or.inl rfl) fun _ => isBlank_of_mem_whitespace
      have hblank := isBlank_of_misses hmisses
      refine ensures_mathChar hblank fun c hpeek => ?_
      -- no blank stands here, so what takes blanks would have been read above
      have hskip := Cursor.peek_skipBlanks hpeek (hblank c hpeek)
      cases hc : takesBlanks c with
      | false => exact Or.inl rfl
      | true =>
        simp only [takesBlanks, Bool.or_eq_true, beq_iff_eq] at hc
        rcases hc with (((rfl | rfl) | rfl) | rfl) | rfl
        · exact Or.inr rfl
        · exact absurd hskip hand
        · exact absurd hskip hhash
        · exact absurd hskip hsup
        · exact absurd hskip hsub

theorem ensures_token (hl : ahead.Understands) (mode : Mode) :
    Ensures (token ahead mode here) (Understood mode here) := by
  unfold token
  refine (ensures_opened hl).orElse fun _ => (ensures_command hl).orElse fun _ =>
    (ensures_ofOption understood_comment).orElse fun _ => ?_
  cases mode with
  | math => exact ensures_mathToken hl
  | text => exact ensures_textToken hl (by simp) .text
  | arguments => exact ensures_textToken hl (by simp) .arguments

theorem understoodAll_nothing : UnderstoodAll mode here (here, []) := ⟨[], [], rfl, rfl, .nil⟩

theorem yields_sequence (hl : ahead.Understands) (mode : Mode) (stop : Option (List Char)) :
    Yields (sequence ahead mode stop here) (UnderstoodAll mode here) := by
  unfold sequence
  split
  · exact yields_pure understoodAll_nothing
  · next c hpeek =>
    obtain ⟨more, hmore⟩ := Cursor.rest_ne_nil_of_peek hpeek
    split
    · exact yields_pure understoodAll_nothing
    · split
      · next hc =>
        obtain rfl : c = '\x00' := by simpa using hc
        intro memory
        obtain ⟨text, nodes, hrest, hnodes, hderives⟩ := hl.sequence mode stop (here.skip 1) memory
        refine ⟨'\x00' :: text, nodes, ?_, hnodes, .null hderives⟩
        rw [hmore, show more = (here.skip 1).rest by simp [hmore], hrest]
        rfl
      · refine Yields.bind (ensures_token hl mode) ?_
        intro outcome houtcome
        cases outcome with
        | none => exact yields_pure understoodAll_nothing
        | some found =>
          obtain ⟨next, item⟩ := found
          obtain ⟨first, node, hfirst, hnode, hderives⟩ := houtcome _ rfl
          refine (hl.sequence mode stop next).bind ?_
          rintro ⟨last, items⟩ ⟨text, nodes, hrest, hnodes, hall⟩
          dsimp only at hfirst hrest hderives hall
          rw [hrest] at hfirst hderives
          refine yields_pure ⟨first ++ text, node :: nodes, ?_, ?_, .cons hderives hall⟩
          · rw [hfirst, List.append_assoc]
          · simp only [Node.ofItems, hnode, hnodes]
            rfl

end Rules

/-- Whatever the bound, what is read within it is understood. -/
theorem understands_within (n : Nat) : (Ahead.within Retrieval.fresh n).Understands := by
  induction n with
  | zero => exact ⟨rfl, fun _ _ _ => yields_pure understoodAll_nothing, fun _ _ => ensures_failure⟩
  | succ n ih =>
    exact ⟨ih.fresh, fun mode stop _ => yields_sequence ih mode stop,
      fun mode _ => ensures_token ih mode⟩

/-- A document that can be read is built into nodes, and its text derives them. -/
theorem readDocument_derives {text : String} {tree : ParseTree}
    (h : readDocument text = .ok tree) :
    ∃ nodes, Node.ofParseTree tree = .ok (.list nodes) ∧ DerivesAll .text text.toList nodes [] := by
  have hread := (understands_within (text.toList.length + 1)).sequence .text none
    (Cursor.start text.toList) Memory.blank
  unfold readDocument at h
  rw [readDocumentBy_cached] at h
  unfold readDocumentBy readSequence at h
  generalize ((Ahead.within Retrieval.fresh (text.toList.length + 1)).sequence .text none
    (Cursor.start text.toList)).run Memory.blank = result at h hread
  obtain ⟨⟨stop, items⟩, memory⟩ := result
  obtain ⟨consumed, nodes, hrest, hnodes, hderives⟩ := hread
  dsimp only at h hrest hnodes hderives
  split at h
  · next hempty =>
    cases h
    rw [List.isEmpty_iff.1 hempty] at hrest hderives
    rw [List.append_nil] at hrest
    refine ⟨nodes, ?_, ?_⟩
    · simp only [Node.ofParseTree, hnodes]
      rfl
    · rwa [show text.toList = consumed from hrest]
  · cases h

/-- A text is outside the grammar, or it is read as nodes that it derives. -/
theorem parse_derives (text : String) :
    (∃ error, readDocument text = .error error ∧ parse text = .error (.outsideGrammar error)) ∨
      ∃ tree nodes, readDocument text = .ok tree ∧ Node.ofParseTree tree = .ok (.list nodes) ∧
        parse text = .ok (.list nodes) ∧ DerivesAll .text text.toList nodes [] := by
  unfold parse
  cases hread : readDocument text with
  | error error => exact Or.inl ⟨error, rfl, rfl⟩
  | ok tree =>
    obtain ⟨nodes, hbuild, hderives⟩ := readDocument_derives hread
    refine Or.inr ⟨tree, nodes, rfl, hbuild, ?_, hderives⟩
    dsimp only
    rw [hbuild]
    rfl

end LatexFormatter
