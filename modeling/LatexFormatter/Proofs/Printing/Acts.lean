import LatexFormatter.Proofs.Doc.Builder
import LatexFormatter.Proofs.Node.Regular
import LatexFormatter.Token.OfNode

/-
  What printing a node consists of, said once for both printers. A node is cut into
  entries: what it has to say, in the order in which it says it. `Acts` lists the
  few things that are done to say them: text is written, a space or a break is
  asked for, wrapping is forbidden for a while, a body is indented, arguments are
  put in brackets. Each is done in the token stream by some tokens and in the
  document by an operation of its builder, so one derivation tells what becomes of
  a tree in both (`acts_addNode`). What each act keeps, every tree keeps.

  How much is known of the tree is said by a `Care`. Where nothing has to be known,
  `suits_free` holds of every tree; comparing the printers, and reading their output
  again, takes more.
-/

namespace LatexFormatter

open Doc

/-! ## Entries -/

/-- A part of what a tree says: text, text in which nothing may change, a space or
a paragraph break, or a comment. -/
inductive Entry where
  | text (content : List Char)
  | literal (content : List Char)
  | blank (broken : Bool)
  | comment (content : String) (sameline : Bool)
  deriving Repr, DecidableEq

/-- The plain text of an entry. -/
def Entry.content : Entry → List Char
  | text content => content
  | literal content => content
  | blank broken => if broken then ['\n', '\n'] else [' ']
  | comment content _ => '%' :: content.toList ++ ['\n']

namespace Node

mutual

/-- What a node says. A verb between blanks may lose its last character, so it is
text like any other. -/
def entries : Node → List Entry
  | list content => entriesAll content
  | string content => [.text content.toList]
  | whitespace => [.blank false]
  | parbreak => [.blank true]
  | command name args => .text ('\\' :: name.toList) :: entriesArgs args
  | environment name args body =>
    .text (openingTag name) :: (entriesArgs args ++ entriesAll body) ++ [.text (closingTag name)]
  | mathEnvironment name body =>
    .text (openingTag name) :: entriesAll body ++ [.text (closingTag name)]
  | inlineMath content => .text ['$'] :: entriesAll content ++ [.text ['$']]
  | displayMath content => .text ['\\', '['] :: entriesAll content ++ [.text ['\\', ']']]
  | group content => .text ['{'] :: entriesAll content ++ [.text ['}']]
  | script mark base => entriesScript mark base
  | verbatim content => [.literal (verbatim content).display]
  | verb delimiter content =>
    if LatexFormatter.isSpace delimiter then [.text (verb delimiter content).display]
    else [.literal (verb delimiter content).display]
  | commentEnvironment content => [.literal (commentEnvironment content).display]
  | comment content sameline => [.comment content sameline]
  | arguments content => .text ['['] :: entriesAll content ++ [.text [']']]

/-- The entries of several nodes, one after the other. -/
def entriesAll : List Node → List Entry
  | [] => []
  | node :: rest => entries node ++ entriesAll rest

/-- The entries of optional arguments. -/
def entriesArgs : Option (List Node) → List Entry
  | none => []
  | some content => .text ['['] :: entriesAll content ++ [.text [']']]

/-- The entries of a script. -/
def entriesScript (mark : Mark) : Option Node → List Entry
  | none => [.text [mark.char]]
  | some base =>
    match base.singleChar? with
    | some c => [.text [mark.char, c]]
    | none =>
      if base.isGroup then .text [mark.char] :: entries base
      else .text [mark.char, '{'] :: entries base ++ [.text ['}']]

end

mutual

/-- The entries of a tree make up its plain text. -/
theorem flatMap_entries : ∀ node : Node, node.entries.flatMap Entry.content = node.display
  | list items => by rw [entries, display]; exact flatMap_entriesAll items
  | string _ | whitespace | parbreak | verbatim _ | commentEnvironment _ | comment _ _ => by
    simp [entries, display, Entry.content]
  | verb delimiter content => by
    rw [entries]
    split <;> simp [Entry.content]
  | command name args => by simp [entries, display, Entry.content, flatMap_entriesArgs args]
  | environment name args body => by
    simp [entries, display, Entry.content, flatMap_entriesArgs args, flatMap_entriesAll body]
  | mathEnvironment name body => by
    simp [entries, display, Entry.content, flatMap_entriesAll body]
  | inlineMath items | displayMath items | group items | arguments items => by
    simp [entries, display, Entry.content, flatMap_entriesAll items]
  | script mark base => by
    rw [entries, display]
    exact flatMap_entriesScript mark base

theorem flatMap_entriesAll : ∀ nodes : List Node,
    (entriesAll nodes).flatMap Entry.content = displayAll nodes
  | [] => rfl
  | node :: rest => by
    simp [entriesAll, displayAll, flatMap_entries node, flatMap_entriesAll rest]

theorem flatMap_entriesArgs : ∀ args : Option (List Node),
    (entriesArgs args).flatMap Entry.content = displayArgs args
  | none => rfl
  | some items => by simp [entriesArgs, displayArgs, Entry.content, flatMap_entriesAll items]

theorem flatMap_entriesScript (mark : Mark) : ∀ base : Option Node,
    (entriesScript mark base).flatMap Entry.content = mark.char :: displayBase base
  | none => rfl
  | some base => by
    have hbase := flatMap_entries base
    rw [entriesScript, displayBase]
    cases base.singleChar? with
    | some c => rfl
    | none =>
      by_cases hg : base.isGroup = true
      · simp [hg, hbase, Entry.content]
      · simp [hg, hbase, Entry.content]

end

end Node

/-! ## What is known of a tree -/

/-- How much is known of the tree that is printed. -/
inductive Care where
  /-- Nothing. -/
  | free
  /-- No two spaces stand in a row, and nothing in arguments breaks a line. -/
  | calm
  /-- No two spaces stand in a row, and nothing breaks a line. -/
  | quiet
  /-- No two spaces stand in a row, there are no arguments, and no text, not even
  that of a comment, ends in a space. -/
  | bare
  deriving Repr, DecidableEq

/-- The text is not empty and ends in neither a space nor a tab. -/
def EndsFirm (content : List Char) : Prop := ∃ c, content.getLast? = some c ∧ isSpace c = false

theorem endsFirm_concat {content : List Char} {c : Char} (h : isSpace c = false) :
    EndsFirm (content ++ [c]) := ⟨c, by simp, h⟩

theorem endsFirm_cons {content : List Char} (c : Char) (h : EndsFirm content) :
    EndsFirm (c :: content) := by
  obtain ⟨last, hlast, hne⟩ := h
  refine ⟨last, ?_, hne⟩
  rw [List.getLast?_cons, hlast]
  rfl

theorem endsFirm_singleton {c : Char} (h : isSpace c = false) : EndsFirm [c] := ⟨c, rfl, h⟩

theorem endsFirm_openingTag (name : String) : EndsFirm (openingTag name) :=
  endsFirm_concat (by decide)

theorem endsFirm_closingTag (name : String) : EndsFirm (closingTag name) :=
  endsFirm_concat (by decide)

namespace Care

/-- What is known of arguments in such a tree. -/
def inArguments : Care → Care
  | calm => quiet
  | care => care

/-- The texts that may be written. -/
def Admits : Care → List Char → Prop
  | quiet, content => '\n' ∉ content
  | bare, content => EndsFirm content
  | _, _ => True

/-- Whether these nodes may follow, when a space is due already or not. -/
def Spaces (care : Care) (due : Bool) (nodes : List Node) : Prop :=
  care ≠ free → Node.Spaced due nodes

variable {care : Care} {content : List Char} {c : Char}

theorem Admits.cons_mark (mark : Mark) (h : care.Admits content) :
    care.Admits (mark.char :: content) := by
  cases care with
  | quiet =>
    have hmark : '\n' ≠ mark.char := by cases mark <;> decide
    exact List.not_mem_cons_of_ne_of_not_mem hmark h
  | bare => exact endsFirm_cons _ h
  | _ => trivial

theorem admits_mark (mark : Mark) : care.Admits [mark.char] := by
  cases care with
  | quiet => cases mark <;> simp [Admits, Mark.char]
  | bare => exact endsFirm_singleton (by cases mark <;> decide)
  | _ => trivial

theorem admits_singleton (hbreak : c ≠ '\n') (hspace : isSpace c = false) : care.Admits [c] := by
  cases care with
  | quiet => simpa [Admits] using hbreak.symm
  | bare => exact endsFirm_singleton hspace
  | _ => trivial

theorem admits_of_endsFirm (h : care ≠ quiet) (hfirm : EndsFirm content) :
    care.Admits content := by
  cases care with
  | quiet => exact absurd rfl h
  | bare => exact hfirm
  | _ => trivial

theorem inArguments_cases (h : care ≠ bare) :
    care.inArguments = free ∨ care.inArguments = quiet := by
  cases care <;> simp_all [inArguments]

theorem inArguments_ne_free (h : care.inArguments ≠ free) : care ≠ free := by
  rintro rfl
  exact h rfl

end Care

namespace Node

mutual

/-- The tree is as it is known to be. -/
def Suits : Care → Node → Prop
  | care, list content => care = .free ∧ SuitsAll care content
  | care, string content => care.Admits content.toList
  | _, whitespace => True
  | care, parbreak => care ≠ .quiet
  | care, command name args =>
    (care = .quiet → startsLine name = false ∧ startsParagraph name = false) ∧
      care.Admits ('\\' :: name.toList) ∧ SuitsArgs care args
  | care, environment _ args body =>
    care ≠ .quiet ∧ SuitsArgs care args ∧ care.Spaces false body ∧ SuitsAll care body
  | care, mathEnvironment _ body =>
    care ≠ .quiet ∧ care.Spaces false body ∧ SuitsAll care body
  | care, displayMath content =>
    care ≠ .quiet ∧ care.Spaces false content ∧ SuitsAll care content
  | care, inlineMath content => care.Spaces false content ∧ SuitsAll care content
  | care, group content => care.Spaces false content ∧ SuitsAll care content
  | care, script _ base => SuitsBase care base
  | care, verbatim _ => care ≠ .quiet
  | care, verb delimiter content => care.Admits (verb delimiter content).display
  | care, commentEnvironment _ => care ≠ .quiet
  | care, comment content _ =>
    care ≠ .quiet ∧ (care = .bare → EndsFirm ('%' :: content.toList))
  | care, arguments content =>
    care ≠ .bare ∧ care.Spaces false content ∧ SuitsAll care.inArguments content

def SuitsAll : Care → List Node → Prop
  | _, [] => True
  | care, node :: rest => Suits care node ∧ SuitsAll care rest

def SuitsArgs : Care → Option (List Node) → Prop
  | _, none => True
  | care, some content =>
    care ≠ .bare ∧ care.Spaces false content ∧ SuitsAll care.inArguments content

def SuitsBase : Care → Option Node → Prop
  | _, none => True
  | care, some base => (∀ c ∈ base.singleChar?, care.Admits [c]) ∧ Suits care base

end

mutual

/-- Where nothing is known, every tree is as it is known to be. -/
theorem suits_free : ∀ node : Node, node.Suits .free
  | list content => ⟨rfl, suitsAll_free content⟩
  | string _ | whitespace => trivial
  | parbreak | verbatim _ | commentEnvironment _ => by simp [Suits]
  | verb _ _ => trivial
  | comment _ _ => by simp [Suits]
  | command _ args => ⟨by simp, trivial, suitsArgs_free args⟩
  | environment _ args body =>
    ⟨by simp, suitsArgs_free args, by simp [Care.Spaces], suitsAll_free body⟩
  | mathEnvironment _ content | displayMath content =>
    ⟨by simp, by simp [Care.Spaces], suitsAll_free content⟩
  | inlineMath content | group content => ⟨by simp [Care.Spaces], suitsAll_free content⟩
  | script _ base => suitsBase_free base
  | arguments content => ⟨by simp, by simp [Care.Spaces], suitsAll_free content⟩

theorem suitsAll_free : ∀ nodes : List Node, SuitsAll .free nodes
  | [] => trivial
  | node :: rest => ⟨suits_free node, suitsAll_free rest⟩

theorem suitsArgs_free : ∀ args : Option (List Node), SuitsArgs .free args
  | none => trivial
  | some content => ⟨by simp, by simp [Care.Spaces], suitsAll_free content⟩

theorem suitsBase_free : ∀ base : Option Node, SuitsBase .free base
  | none => trivial
  | some base => ⟨fun _ _ => trivial, suits_free base⟩

end

theorem suitsAll_append {care : Care} {items more : List Node} (h : SuitsAll care items)
    (h' : SuitsAll care more) : SuitsAll care (items ++ more) := by
  induction items with
  | nil => exact h'
  | cons node rest ih => exact ⟨h.1, ih h.2⟩

theorem Spaced.weaken {after before : Bool} {items : List Node} (h : Spaced after items)
    (hb : before = true → after = true) : Spaced before items := by
  cases items with
  | nil => trivial
  | cons node rest => exact ⟨fun hbefore => h.1 (hb hbefore), h.2⟩

/-- White space comes first only where no space is due. -/
theorem Spaced.first_pending {pending : Bool} {node : Node} {rest : List Node}
    (h : Spaced pending (node :: rest)) (hw : node.isWhitespace = true) : pending = false := by
  cases pending with
  | false => rfl
  | true => simp [h.1 rfl] at hw

/-- A node that leaves a space due only if it is white space leaves the rest
spaced. -/
theorem Spaced.rest_pending {pending after : Bool} {node : Node} {rest : List Node}
    (h : Spaced pending (node :: rest)) (ha : node.isWhitespace = false → after = false) :
    Spaced after rest := by
  apply h.2.weaken
  intro hafter
  cases hw : node.isWhitespace with
  | true => rfl
  | false => simp [ha hw] at hafter

end Node

theorem Token.ofNodes_append (items more : List Node) :
    ofNodes (items ++ more) = ofNodes items ++ ofNodes more := by
  induction items with
  | nil => rfl
  | cons node rest ih => simp [ofNodes, ih]

/-! ## Acts -/

/-- What is done to a builder, what stands for it in the token stream, and what has
been said by it. -/
inductive Acts : Care → Builder → List Token → List Entry → Builder → Prop where
  | nil {care : Care} {builder : Builder} : Acts care builder [] [] builder
  | append {care : Care} {builder mid last : Builder} {tokens tokens' : List Token}
      {entries entries' : List Entry} (h : Acts care builder tokens entries mid)
      (h' : Acts care mid tokens' entries' last) :
      Acts care builder (tokens ++ tokens') (entries ++ entries') last
  | text {care : Care} {builder : Builder} (content : List Char) (h : care.Admits content) :
      Acts care builder [.chars content] [.text content] (builder.write content)
  /-- Literal text does not end in a blank that could be taken back. -/
  | literal {care : Care} {builder : Builder} (content : List Char) (last : Char)
      (hlast : content.getLast? = some last) (hspace : isSpace last = false)
      (h : care.Admits content) :
      Acts care builder [.chars content] [.literal content] (builder.write content)
  | space {care : Care} {builder : Builder} (h : care ≠ .free → builder.pendingSpace = false) :
      Acts care builder [.space] [.blank false] builder.putSpace
  | paragraph {care : Care} {builder : Builder} (h : care ≠ .quiet) :
      Acts care builder [.paragraphBreak] [.blank true] builder.leaveParagraph
  | newline {care : Care} {builder : Builder} (h : care ≠ .quiet) :
      Acts care builder [.newline] [] builder.newline
  | ensureNewline {care : Care} {builder : Builder} (h : care ≠ .quiet) :
      Acts care builder [.ensureNewline] [] builder.ensureNewline
  | preferParagraph {care : Care} {builder : Builder} (h : care ≠ .quiet) :
      Acts care builder [.preferParagraph] [] builder.preferParagraph
  /-- A comment, on a line of its own unless it shares one. -/
  | comment {care : Care} {builder : Builder} (content : String) (sameline : Bool)
      (h : care ≠ .quiet) (hfirm : care = .bare → EndsFirm ('%' :: content.toList)) :
      Acts care builder
        ((if sameline then [] else [.ensureNewline]) ++ [.chars ('%' :: content.toList), .newline])
        [.comment content sameline]
        ((if sameline then builder else builder.ensureNewline).write
          ('%' :: content.toList)).newline
  /-- A line after a comma in arguments: it may be nothing, and the token stream has
  none. -/
  | softline {care : Care} {builder : Builder} (h : care = .free ∨ care = .quiet) :
      Acts care builder [] [] (builder.push softline)
  /-- A line after a comma in arguments that takes the place of a space. -/
  | spaceline {care : Care} {builder : Builder} (h : care = .free ∨ care = .quiet)
      (hpending : care ≠ .free → builder.pendingSpace = false)
      (hending : builder.ending = .content) :
      Acts care builder [.space] [.blank false] (builder.push space)
  | held {care : Care} {builder last : Builder} {tokens : List Token} {entries : List Entry}
      (h : Acts care builder.hold tokens entries last) :
      Acts care builder (.noWrap :: tokens ++ [.endNoWrap]) entries last.release
  | indented {care : Care} {builder inner : Builder} {tokens : List Token} {entries : List Entry}
      (hcare : care ≠ .quiet) (hpending : builder.pendingSpace = false)
      (h : Acts care builder.nested tokens entries inner) :
      Acts care builder (.indent :: tokens ++ [.endIndent]) entries (builder.closeBody inner)
  | bracketed {care : Care} {builder inner : Builder} {tokens : List Token}
      {entries : List Entry} (hcare : care ≠ .bare)
      (h : Acts care.inArguments builder.openArguments.nested tokens entries inner) :
      Acts care builder (.text "[" :: tokens ++ [.text "]"])
        (.text ['['] :: entries ++ [.text [']']]) (builder.openArguments.closeArguments inner)

/-! ## Spaces that are due -/

namespace Doc.Builder

/-- A space is due only after something. -/
def Settled (builder : Builder) : Prop :=
  builder.pendingSpace = true → builder.ending = .content

variable {builder : Builder}

/-- The builder after a space that was due has been put. -/
theorem pendingSpace_resolveSpace (next : List Char) (builder : Builder) :
    (builder.resolveSpace next).pendingSpace = false := by
  unfold resolveSpace
  split
  · dsimp only
    split <;> rfl
  · next hp => simpa using hp

@[simp] theorem pendingSpace_write (content : List Char) (builder : Builder) :
    (builder.write content).pendingSpace = false := pendingSpace_resolveSpace content builder

@[simp] theorem pendingSpace_hardBreak (count : Nat) (ending : Ending) (builder : Builder) :
    (builder.hardBreak count ending).pendingSpace = false := by
  rw [hardBreak_eq]

theorem pendingSpace_openArguments (builder : Builder) :
    builder.openArguments.pendingSpace = false :=
  pendingSpace_resolveSpace ['['] builder

theorem pendingSpace_closeArguments (builder inner : Builder) :
    (builder.closeArguments inner).pendingSpace = false := by
  unfold closeArguments
  cases hc : inner.pendingSpace <;> simp [hc, resume, release, push]

theorem settled_of_pendingSpace (h : builder.pendingSpace = false) : builder.Settled := by
  intro hpending
  rw [h] at hpending
  cases hpending

theorem Settled.leaveParagraph (h : builder.Settled) :
    builder.leaveParagraph.pendingSpace = false := by
  unfold Builder.leaveParagraph
  split
  · next hending =>
    cases hp : builder.pendingSpace with
    | false => rfl
    | true => simp [h hp] at hending
  · simp
  · simp

end Doc.Builder

theorem Acts.settled {care : Care} {builder last : Builder} {tokens : List Token}
    {entries : List Entry} (h : Acts care builder tokens entries last)
    (hsettled : builder.Settled) : last.Settled := by
  induction h with
  | nil => exact hsettled
  | append _ _ ih ih' => exact ih' (ih hsettled)
  | text | literal => exact Builder.settled_of_pendingSpace (Builder.pendingSpace_write ..)
  | space =>
    unfold Builder.putSpace
    split
    · next hending => exact fun _ => by simpa using hending
    · exact hsettled
  | paragraph => exact Builder.settled_of_pendingSpace hsettled.leaveParagraph
  | newline => exact Builder.settled_of_pendingSpace (Builder.pendingSpace_hardBreak ..)
  | ensureNewline =>
    unfold Builder.ensureNewline
    split
    · exact Builder.settled_of_pendingSpace (Builder.pendingSpace_hardBreak ..)
    · exact hsettled
  | preferParagraph =>
    unfold Builder.preferParagraph
    split
    · exact Builder.settled_of_pendingSpace (Builder.pendingSpace_hardBreak ..)
    · exact hsettled
  | comment => exact Builder.settled_of_pendingSpace (Builder.pendingSpace_hardBreak ..)
  | softline | spaceline => exact hsettled
  | held _ ih => exact ih hsettled
  | indented _ _ _ ih => exact ih hsettled
  | bracketed => exact Builder.settled_of_pendingSpace (Builder.pendingSpace_closeArguments ..)

/-- Only white space leaves a space due. -/
theorem pendingSpace_addNode {care : Care} (hcare : care ≠ .free) {node : Node}
    (hsuits : node.Suits care) (hspace : node.isWhitespace = false) {builder : Builder}
    (hsettled : builder.Settled) : (addNode builder node).pendingSpace = false := by
  cases node with
  | list _ => exact absurd hsuits.1 hcare
  | whitespace => cases hspace
  | parbreak => exact hsettled.leaveParagraph
  | command name args =>
    cases args with
    | none => exact Builder.pendingSpace_write ..
    | some content => exact Builder.pendingSpace_closeArguments ..
  | arguments content => exact Builder.pendingSpace_closeArguments ..
  | script mark base =>
    rw [addNode]
    cases base with
    | none => exact Builder.pendingSpace_write ..
    | some base =>
      rw [addScript]
      split
      · exact Builder.pendingSpace_write ..
      · split
        · next hgroup =>
          cases base with
          | group content => exact Builder.pendingSpace_write ..
          | _ => cases hgroup
        · exact Builder.pendingSpace_write ..
  | commentEnvironment _ | comment _ _ => exact Builder.pendingSpace_hardBreak ..
  | _ => exact Builder.pendingSpace_write ..

/-! ## The acts of a tree -/

namespace Acts

variable {care : Care} {builder inner last : Builder} {tokens : List Token} {entries : List Entry}

theorem string (content : String) (h : care.Admits content.toList) :
    Acts care builder [.text content] [.text content.toList] (builder.write content.toList) := by
  have hact : Acts care builder _ _ _ := .text content.toList h
  rwa [Token.chars, String.ofList_toList] at hact

theorem beforeCommand {name : String}
    (h : care = .quiet → startsLine name = false ∧ startsParagraph name = false) :
    Acts care builder (Token.beforeCommand name) [] (builder.beforeCommand name) := by
  unfold Token.beforeCommand Builder.beforeCommand
  cases hline : startsLine name with
  | true => exact .ensureNewline fun hcare => by simp [h hcare] at hline
  | false =>
    cases hparagraph : startsParagraph name with
    | true => exact .preferParagraph fun hcare => by simp [h hcare] at hparagraph
    | false => exact .nil

/-- A block: an opening on a line of its own, an indented body, and a closing. -/
theorem block (hcare : care ≠ .quiet) (opening closing : List Char) (hopening : EndsFirm opening)
    (hclosing : EndsFirm closing)
    (h : Acts care (builder.ensureNewline.write opening).nested tokens entries inner) :
    Acts care builder
      ([.ensureNewline, .chars opening, .indent] ++ tokens
        ++ [.endIndent, .newline, .chars closing])
      (.text opening :: entries ++ [.text closing])
      (((builder.ensureNewline.write opening).closeBody inner).newline.write closing) := by
  have hopen : Acts care builder [.ensureNewline, .chars opening] [.text opening] _ :=
    (ensureNewline hcare).append (text opening (Care.admits_of_endsFirm hcare hopening))
  have hbody := hopen.append (indented hcare (Builder.pendingSpace_write ..) h)
  have hclose := hbody.append
    ((newline hcare).append (text closing (Care.admits_of_endsFirm hcare hclosing)))
  simpa using hclose

/-- Text around other acts. -/
theorem between (opening closing : List Char) (hopening : care.Admits opening)
    (hclosing : care.Admits closing) (h : Acts care (builder.write opening) tokens entries last) :
    Acts care builder (.chars opening :: tokens ++ [.chars closing])
      (.text opening :: entries ++ [.text closing]) (last.write closing) :=
  ((text opening hopening).append h).append (text closing hclosing)

theorem verbatim (content : String) (h : care ≠ .quiet) :
    Acts care builder (Token.ofNode (.verbatim content)) (Node.verbatim content).entries
      (addNode builder (.verbatim content)) := by
  have hlast : (Node.verbatim content).display.getLast? = some '}' := by
    rw [Node.display, closingTag, ← List.append_assoc, List.getLast?_concat]
  have hfirm : EndsFirm (Node.verbatim content).display := ⟨'}', hlast, by decide⟩
  exact (ensureNewline h).append
    (held (literal _ '}' hlast rfl (Care.admits_of_endsFirm h hfirm)))

theorem commentEnvironment (content : String) (h : care ≠ .quiet) :
    Acts care builder (Token.ofNode (.commentEnvironment content))
      (Node.commentEnvironment content).entries
      (addNode builder (.commentEnvironment content)) := by
  have hlast : (Node.commentEnvironment content).display.getLast? = some '}' := by
    rw [Node.display, closingTag, ← List.append_assoc, List.getLast?_concat]
  have hfirm : EndsFirm (Node.commentEnvironment content).display := ⟨'}', hlast, by decide⟩
  exact ((ensureNewline h).append
    (held (literal _ '}' hlast rfl (Care.admits_of_endsFirm h hfirm)))).append (newline h)

theorem verb (delimiter : Char) (content : String)
    (h : care.Admits (Node.verb delimiter content).display) :
    Acts care builder (Token.ofNode (.verb delimiter content)) (Node.verb delimiter content).entries
      (addNode builder (.verb delimiter content)) := by
  rw [Node.entries]
  split
  · exact held (text _ h)
  · next hspace =>
    have hlast : (Node.verb delimiter content).display.getLast? = some delimiter := by
      rw [Node.display, List.getLast?_concat]
    exact held (literal _ delimiter hlast (by simpa using hspace) h)

/-- Arguments in which the line may be broken after commas. -/
theorem items {content : List Node} (hs : Node.SuitsArgs care (some content))
    (h : care.inArguments = .free ∨ care.inArguments = .quiet →
      (care.inArguments ≠ .free → builder.openArguments.nested.Settled ∧
        Node.Spaced builder.openArguments.nested.pendingSpace content) →
      Acts care.inArguments builder.openArguments.nested tokens entries inner) :
    Acts care builder (.text "[" :: tokens ++ [.text "]"])
      (.text ['['] :: entries ++ [.text [']']]) (builder.openArguments.closeArguments inner) := by
  have hpending : builder.openArguments.nested.pendingSpace = false :=
    builder.pendingSpace_openArguments
  refine bracketed hs.1 (h (Care.inArguments_cases hs.1) fun hcare => ?_)
  exact ⟨Builder.settled_of_pendingSpace hpending,
    (hs.2.1 (Care.inArguments_ne_free hcare)).weaken (by simp [hpending])⟩

end Acts

mutual

/-- What printing a node consists of. -/
theorem acts_addNode : ∀ (node : Node) {care : Care} {builder : Builder}, node.Suits care →
    (care ≠ .free → builder.Settled ∧ (node.isWhitespace = true → builder.pendingSpace = false)) →
    Acts care builder (Token.ofNode node) node.entries (addNode builder node)
  | .list content, _, _ => fun hs _ =>
    acts_addNodes content hs.2 fun hcare => absurd hs.1 hcare
  | .string content, _, _ => fun hs _ => Acts.string content hs
  | .whitespace, _, _ => fun _ hb => .space fun hcare => (hb hcare).2 rfl
  | .parbreak, _, _ => fun hs _ => .paragraph hs
  | .command name args, care, builder => fun hs _ => by
    have hname : Acts care builder _ _ _ :=
      (Acts.beforeCommand hs.1).append (.text ('\\' :: name.toList) hs.2.1)
    simpa [Token.ofNode, Node.entries, addNode] using hname.append (acts_addArgs args hs.2.2)
  | .environment name args body, _, builder => fun hs hb => by
    have hargs : Acts _ (builder.ensureNewline.write (openingTag name)).nested _ _ _ :=
      acts_addArgs args hs.2.1
    have hline := hargs.append (.newline hs.1)
    have hbody := hline.append (acts_addNodes body hs.2.2.2 fun hcare =>
      ⟨Builder.settled_of_pendingSpace (Builder.pendingSpace_hardBreak ..),
        (hs.2.2.1 hcare).weaken (by simp [Builder.newline])⟩)
    simpa [Token.ofNode, Node.entries, addNode] using
      Acts.block hs.1 (openingTag name) (closingTag name) (endsFirm_openingTag name)
        (endsFirm_closingTag name) hbody
  | .mathEnvironment name body, _, builder => fun hs _ => by
    have hline : Acts _ (builder.ensureNewline.write (openingTag name)).nested _ _ _ :=
      .newline hs.1
    have hbody := hline.append (acts_addNodes body hs.2.2 fun hcare =>
      ⟨Builder.settled_of_pendingSpace (Builder.pendingSpace_hardBreak ..),
        (hs.2.1 hcare).weaken (by simp [Builder.newline])⟩)
    simpa [Token.ofNode, Node.entries, addNode] using
      Acts.block hs.1 (openingTag name) (closingTag name) (endsFirm_openingTag name)
        (endsFirm_closingTag name) hbody
  | .displayMath content, _, builder => fun hs _ => by
    have hline : Acts _ (builder.ensureNewline.write ['\\', '[']).nested _ _ _ :=
      .newline hs.1
    have hbody := hline.append (acts_addNodes content hs.2.2 fun hcare =>
      ⟨Builder.settled_of_pendingSpace (Builder.pendingSpace_hardBreak ..),
        (hs.2.1 hcare).weaken (by simp [Builder.newline])⟩)
    simpa [Token.ofNode, Node.entries, addNode, Token.chars] using
      Acts.block hs.1 ['\\', '['] ['\\', ']'] (endsFirm_cons _ (endsFirm_singleton (by decide)))
        (endsFirm_cons _ (endsFirm_singleton (by decide))) hbody
  | .inlineMath content, care, builder => fun hs _ => by
    have hbody : Acts care (builder.write ['$']) _ _ _ := acts_addNodes content hs.2 fun hcare =>
      ⟨Builder.settled_of_pendingSpace (by simp), (hs.1 hcare).weaken (by simp)⟩
    simpa [Token.ofNode, Node.entries, addNode, Token.chars] using
      Acts.between ['$'] ['$'] (Care.admits_singleton (by decide) (by decide))
        (Care.admits_singleton (by decide) (by decide)) hbody
  | .group content, care, builder => fun hs _ => by
    have hbody : Acts care (builder.hold.write ['{']) _ _ _ :=
      acts_addNodes content hs.2 fun hcare =>
        ⟨Builder.settled_of_pendingSpace (by simp), (hs.1 hcare).weaken (by simp)⟩
    simpa [Token.ofNode, Node.entries, addNode, Token.chars] using
      Acts.held (Acts.between ['{'] ['}'] (Care.admits_singleton (by decide) (by decide))
        (Care.admits_singleton (by decide) (by decide)) hbody)
  | .script mark base, _, _ => fun hs _ => by
    rw [Token.ofNode, Node.entries, addNode]
    exact acts_addScript mark base hs
  | .verbatim content, _, _ => fun hs _ => Acts.verbatim content hs
  | .verb delimiter content, _, _ => fun hs _ => Acts.verb delimiter content hs
  | .commentEnvironment content, _, _ => fun hs _ => Acts.commentEnvironment content hs
  | .comment content sameline, _, _ => fun hs _ => .comment content sameline hs.1 hs.2
  | .arguments content, _, _ => fun hs _ =>
    .items hs fun hcare hb => acts_addItems content false hcare hs.2.2 (by simp) hb

theorem acts_addNodes : ∀ (nodes : List Node) {care : Care} {builder : Builder},
    Node.SuitsAll care nodes →
    (care ≠ .free → builder.Settled ∧ Node.Spaced builder.pendingSpace nodes) →
    Acts care builder (Token.ofNodes nodes) (Node.entriesAll nodes) (addNodes builder nodes)
  | [], _, _ => fun _ _ => .nil
  | node :: rest, care, builder => fun hs hb => by
    have hnode := acts_addNode node hs.1 fun hcare =>
      ⟨(hb hcare).1, (hb hcare).2.first_pending⟩
    exact hnode.append (acts_addNodes rest hs.2 fun hcare =>
      ⟨hnode.settled (hb hcare).1, (hb hcare).2.rest_pending fun hspace =>
        pendingSpace_addNode hcare hs.1 hspace (hb hcare).1⟩)

theorem acts_addArgs : ∀ (args : Option (List Node)) {care : Care} {builder : Builder},
    Node.SuitsArgs care args →
    Acts care builder (Token.ofArgs args) (Node.entriesArgs args) (addArgs builder args)
  | none, _, _ => fun _ => .nil
  | some content, _, _ => fun hs =>
    .items hs fun hcare hb => acts_addItems content false hcare hs.2.2 (by simp) hb

/-- The nodes of an argument list. If the next one is passed over, it is white space
whose place a line after a comma has taken. -/
theorem acts_addItems : ∀ (items : List Node) (skip : Bool) {care : Care} {builder : Builder},
    care = .free ∨ care = .quiet → Node.SuitsAll care items →
    (skip = true → ∃ rest, items = .whitespace :: rest) →
    (care ≠ .free → builder.Settled ∧ Node.Spaced builder.pendingSpace items) →
    Acts care builder (Token.ofNodes (if skip then items.tail else items))
      (Node.entriesAll (if skip then items.tail else items)) (addItems builder skip items)
  | [], skip, _, _ => fun _ _ _ _ => by
    cases skip <;> exact .nil
  | node :: rest, true, _, builder => fun hcare hs hskip hb => by
    obtain ⟨more, heq⟩ := hskip rfl
    obtain ⟨rfl, rfl⟩ := List.cons.inj heq
    rw [addItems]
    exact acts_addItems rest false hcare hs.2 (by simp) fun hfree =>
      ⟨(hb hfree).1, (hb hfree).2.2.weaken (by simp [Node.isWhitespace])⟩
  | node :: rest, false, care, builder => fun hcare hs _ hb => by
    have hnode := acts_addNode node hs.1 fun hfree => ⟨(hb hfree).1, (hb hfree).2.first_pending⟩
    have hpending : care ≠ .free → node.isWhitespace = false →
        (addNode builder node).pendingSpace = false := fun hfree hspace =>
      pendingSpace_addNode hfree hs.1 hspace (hb hfree).1
    have hrest : care ≠ .free → (addNode builder node).Settled ∧
        Node.Spaced (addNode builder node).pendingSpace rest := fun hfree =>
      ⟨hnode.settled (hb hfree).1, (hb hfree).2.rest_pending (hpending hfree)⟩
    have hmore := acts_addItems rest false hcare hs.2 (by simp) hrest
    rw [addItems]
    simp only [Bool.false_eq_true, if_false, Token.ofNodes, Node.entriesAll]
    split
    · next hcomma =>
      simp only [Bool.and_eq_true, beq_iff_eq] at hcomma
      have hspace : node.isWhitespace = false := by
        cases node <;> first | rfl | cases hcomma.1
      rcases afterComma_cases rest with hc | hc | ⟨hnext, hc⟩ <;> rw [hc]
      · exact hnode.append hmore
      · have hline : Acts care ((addNode builder node).push softline) _ _ _ :=
          acts_addItems rest false hcare hs.2 (by simp) hrest
        exact hnode.append ((Acts.softline hcare).append hline)
      · have hline : Acts care ((addNode builder node).push space) _ _ _ :=
          acts_addItems rest true hcare hs.2 (fun _ => hnext) hrest
        obtain ⟨more, rfl⟩ := hnext
        exact hnode.append ((Acts.spaceline hcare (fun hfree => hpending hfree hspace)
          hcomma.2).append hline)
    · exact hnode.append hmore

theorem acts_addScript (mark : Mark) : ∀ (base : Option Node) {care : Care} {builder : Builder},
    Node.SuitsBase care base →
    Acts care builder (Token.ofScript mark base) (Node.entriesScript mark base)
      (addScript builder mark base)
  | none, _, _ => fun _ => .text [mark.char] (Care.admits_mark mark)
  | some base, care, builder => fun hs => by
    have hbase : ∀ opening, Acts care (builder.write opening) (Token.ofNode base) base.entries
        (addNode (builder.write opening) base) := fun opening =>
      acts_addNode base hs.2 fun _ => ⟨Builder.settled_of_pendingSpace (by simp), by simp⟩
    rw [Token.ofScript, Node.entriesScript, addScript]
    cases hsingle : base.singleChar? with
    | some c => exact .text [mark.char, c] ((hs.1 c hsingle).cons_mark mark)
    | none =>
      cases hg : base.isGroup with
      | true => exact (Acts.text [mark.char] (Care.admits_mark mark)).append (hbase _)
      | false =>
        exact Acts.between [mark.char, '{'] ['}']
          ((Care.admits_singleton (by decide) (by decide)).cons_mark mark)
          (Care.admits_singleton (by decide) (by decide)) (hbase _)

end

/-- What printing a tree of which nothing is known consists of. -/
theorem acts_addNode_free (node : Node) (builder : Builder) :
    Acts .free builder (Token.ofNode node) node.entries (addNode builder node) :=
  acts_addNode node (Node.suits_free node) (by simp)

end LatexFormatter
