import LatexFormatter.Proofs.Printing.Regained
import LatexFormatter.Proofs.Printing.Parallel

/-
  Nodes at a joint, kind by kind. What has been printed of a node begins with the
  blanks of the joint before it, and its notation is read back as the node, or as one
  that comes to the same, together with the rest of its list (`Lands`). A node that
  encloses a list is a `Shell` around it: what is regained of the list is regained of
  the node.
-/

namespace LatexFormatter

open Node Doc

/-! ## Texts along an outline -/

theorem Laid.of_single {lead : Lead} {solid front : List Char} (h : Laid [(lead, solid)] front) :
    ∃ blanks, lead.Fits solid blanks ∧ front = blanks ++ solid := by
  cases h with
  | cons solid hb h =>
    cases h
    exact ⟨_, hb, by simp⟩

theorem Laid.of_enclosed {lead lead' : Lead} {opening closing front : List Char}
    {pieces : List (Lead × List Char)}
    (h : Laid ((lead, opening) :: pieces ++ [(lead', closing)]) front) :
    ∃ blanks inner blanks', lead.Fits opening blanks ∧ Laid pieces inner ∧
      lead'.Fits closing blanks' ∧
      front = blanks ++ (opening ++ (inner ++ blanks') ++ closing) := by
  cases h with
  | cons solid hb h =>
    obtain ⟨inner, back, rfl, hinner, hback⟩ := h.of_append
    obtain ⟨blanks', hb', rfl⟩ := hback.of_single
    exact ⟨_, inner, blanks', hb, hinner, hb', by simp⟩

/-! ## Firm texts -/

theorem endsFirm_of_solid {content : List Char} (hne : content ≠ [])
    (h : ∀ c ∈ content, isBlank c = false) : EndsFirm content :=
  ⟨content.getLast hne, List.getLast?_eq_some_getLast hne,
    isSpace_of_isBlank_eq_false (h _ (List.getLast_mem hne))⟩

theorem spaced_of_spread {inBody : Bool} {before : Option Node} {items : List Node}
    (h : Spread inBody before items) : Spaced false items := by
  rw [← collapseFrom_of_spread h]
  exact spaced_collapseFrom ..

theorem endsFirm_of_isToken {mode : Mode} {content : List Char} (h : IsToken mode content) :
    EndsFirm content := by
  have hmark : ∀ {c : Char}, content = [c] → c = '&' ∨ c = '#' → EndsFirm content := by
    rintro c rfl (rfl | rfl) <;> exact endsFirm_singleton (by decide)
  cases mode with
  | arguments => exact h.elim
  | text =>
    rcases h with h | h | ⟨hne, hc⟩
    · exact hmark h (Or.inl rfl)
    · exact hmark h (Or.inr rfl)
    · exact endsFirm_of_solid hne fun c hmem =>
        (hc c hmem).elim isBlank_of_isPlain isBlank_of_isPunctuation
  | math =>
    obtain ⟨c, rfl, hc⟩ := h
    rcases hc with hc | hc | hc
    · exact hmark rfl (Or.inl hc)
    · exact hmark rfl (Or.inr hc)
    · exact endsFirm_singleton (isSpace_of_isBlank_eq_false (isBlank_of_isMathChar hc))

theorem endsFirm_of_comment {content : List Char}
    (h : ∀ c ∈ content.getLast?, LatexFormatter.isSpace c = false) : EndsFirm ('%' :: content) := by
  cases hlast : content.getLast? with
  | none => exact ⟨'%', by simp [List.getLast?_cons, hlast], by decide⟩
  | some c => exact ⟨c, by simp [List.getLast?_cons, hlast], h c hlast⟩

mutual

/-- No text of an orderly tree could lose a space at its end. -/
theorem suits_of_orderly : ∀ (node : Node) {mode : Mode}, Orderly mode node → node.Normal →
    node.Suits .bare
  | .string _, _, ho, _ => endsFirm_of_isToken ho
  | .whitespace, _, _, _ => trivial
  | .parbreak, _, _, _ | .verbatim _, _, _, _ | .commentEnvironment _, _, _, _ => by simp [Suits]
  | .command name args, _, ho, _ => by
    obtain ⟨rfl, hname⟩ := ho
    have hfirm : EndsFirm name.toList := by
      rcases hname with hname | ⟨c, hname, hc⟩
      · exact endsFirm_of_solid hname.ne_nil fun c hmem =>
          isBlank_of_isLetter (hname.letters c hmem)
      · exact hname ▸ endsFirm_singleton (isSpace_of_isBlank_eq_false hc.not_blank)
    exact ⟨by simp, endsFirm_cons '\\' hfirm, trivial⟩
  | .group content, _, ho, hn =>
    ⟨fun _ => spaced_of_spread hn.1, suitsAll_of_orderly content ho.2 hn.2⟩
  | .inlineMath content, _, ho, hn =>
    ⟨fun _ => spaced_of_spread hn.1, suitsAll_of_orderly content ho.2.2.2 hn.2⟩
  | .displayMath content, _, ho, hn =>
    ⟨by simp, fun _ => spaced_of_spread hn.1, suitsAll_of_orderly content ho.2 hn.2⟩
  | .script _ (some base), _, ho, hn =>
    ⟨fun c hc => endsFirm_singleton
      (isSpace_of_isBlank_eq_false (isBlank_of_isMathChar (ho.2.1 c hc))),
      suits_of_orderly base ho.2.2 hn⟩
  | .verb _ _, _, ho, _ =>
    endsFirm_concat (isSpace_of_isBlank_eq_false (isBlank_of_isWhiteSpace ho.2.1))
  | .comment content _, _, ho, _ => ⟨by simp, fun _ => endsFirm_of_comment ho.2⟩
  | .environment _ args body, _, ho, hn => by
    obtain ⟨rfl, -, -, -, horderly⟩ := ho
    exact ⟨by simp, trivial, fun _ => spaced_of_spread hn.2.1,
      suitsAll_of_orderly body horderly hn.2.2⟩
  | .mathEnvironment _ body, _, ho, hn =>
    ⟨by simp, fun _ => spaced_of_spread hn.1, suitsAll_of_orderly body ho.2.2 hn.2⟩
  | .list _, _, ho, _ | .arguments _, _, ho, _ | .script _ none, _, ho, _ => ho.elim

theorem suitsAll_of_orderly : ∀ (items : List Node) {mode : Mode}, OrderlyAll mode items →
    NormalAll items → SuitsAll .bare items
  | [], _, _, _ => trivial
  | node :: rest, _, ho, hn =>
    ⟨suits_of_orderly node ho.1 hn.1, suitsAll_of_orderly rest ho.2 hn.2⟩

end

/-! ## Node by node -/

section Nodes

variable {enclosure : Enclosure} {dropsBefore : Bool} {lead : Lead} {run : Option Bool}
  {node node' : Node} {rest items found : List Node} {solid blanks text : List Char}

theorem JointText.readsRegained (h : JointText enclosure dropsBefore lead items blanks text) :
    ReadsRegained enclosure dropsBefore lead items (lead == .start) (blanks ++ text) :=
  h.reads [] blanks rfl (Or.inl rfl)

/-- The lead behind a node does not depend on what came before. -/
theorem afterAll_ofNode {mode : Mode} (ho : Orderly mode node) (hs : node.isSpace = false)
    (lead : Lead) : lead.afterAll (Token.ofNode node) = leadAfter node := by
  cases node with
  | script mark base =>
    cases base with
    | none => rfl
    | some base =>
      cases base with
      | group content =>
        simp only [Token.ofNode, Token.ofScript]
        split <;> simp [isGroup, leadAfter]
      | string content =>
        simp only [Token.ofNode, Token.ofScript]
        split <;> simp [isGroup, leadAfter]
      | _ => exact absurd ho.1 (by simp [isString, isGroup])
  | command name args =>
    obtain rfl : args = none := ho.1
    simp [Token.ofNode, Token.ofArgs, leadAfter]
  | list | arguments => exact ho.elim
  | whitespace | parbreak => cases hs
  | _ => simp [Token.ofNode, Token.literal, leadAfter]

/-- A node that is printed as it was read. -/
theorem samePrint_self (hn : node.normalize = node) (hs : node.isSpace = false)
    (hsuits : node.Suits .bare) : SamePrint node node.normalize := by
  rw [hn]
  exact ⟨hs, rfl, fun _ => .rfl, hsuits, fun _ => rfl⟩

/-- A node that leaves the blanks behind it alone. -/
theorem readsNode_of_spelled
    (hrest : JointText enclosure node.isEnvironmentLike .tight rest blanks text)
    (hlead : leadAfter node = .tight) (hmade : SamePrint node node'.normalize)
    (hspelled : ∀ fresh before raw, TakenBefore enclosure node before →
      Spelled enclosure.mode false raw (blanks ++ text) →
      Spelled enclosure.mode fresh (node' :: raw) (before ++ (solid ++ (blanks ++ text)))) :
    ReadsNode enclosure node rest (solid ++ (blanks ++ text)) := by
  obtain ⟨raw, hraw, hmore⟩ := hrest.readsRegained
  refine ⟨node', raw, hmade, fun fresh before hbefore => hspelled fresh before raw hbefore hraw, ?_⟩
  rw [hlead]
  exact hmore

/-- A node that in math takes along the blanks on both sides. -/
theorem readsNode_of_around
    (hrest : JointText enclosure node.isEnvironmentLike .tight rest blanks text)
    (hlead : leadAfter node = .tight) (hspaced : enclosure.mode = .math → startsSpaced rest = false)
    (hmade : SamePrint node node'.normalize)
    (hspelled : ∀ fresh before after left raw, TakenBefore enclosure node before →
      Around enclosure.mode before after (left ++ text) →
      Spelled enclosure.mode (freshAfterAll false after) raw (left ++ text) →
      Spelled enclosure.mode fresh (node' :: raw)
        (before ++ (solid ++ (after ++ (left ++ text))))) :
    ReadsNode enclosure node rest (solid ++ (blanks ++ text)) := by
  by_cases hmath : enclosure.mode = .math
  · obtain ⟨raw, hraw, hmore⟩ := hrest.reads blanks [] (by simp)
      (Or.inr (Or.inr ⟨hmath, hspaced hmath, rfl⟩))
    refine ⟨node', raw, hmade, fun fresh before hbefore => ?_, hlead ▸ hmore⟩
    refine hspelled fresh before blanks [] raw hbefore ⟨hbefore.takes, ?_, fun _ => hrest.head⟩ hraw
    rw [hmath]
    exact hrest.isBlank
  · obtain ⟨raw, hraw, hmore⟩ := hrest.readsRegained
    refine ⟨node', raw, hmade, fun fresh before hbefore => ?_, hlead ▸ hmore⟩
    exact hspelled fresh before [] blanks raw hbefore
      ⟨hbefore.takes, TakenBefore.takes (Or.inl rfl : TakenBefore enclosure node []),
        fun h => absurd h hmath⟩ hraw

end Nodes

/-! ## Nodes around a list -/

/-- The lead that a list begins with inside of its enclosure. -/
def Enclosure.start (inner : Enclosure) : Lead := if inner.ownLine then .line else .tight

theorem Enclosure.solids_close (inner : Enclosure) (lead : Lead) :
    solids lead inner.close = [] := by
  unfold Enclosure.close
  split <;> rfl

theorem Enclosure.start_ne (inner : Enclosure) : inner.start ≠ .start := by
  unfold Enclosure.start
  split <;> decide

/-- A kind of node that stands around a list: what is printed before the list and behind
it, and that nothing but the list changes when it is normalized. -/
structure Shell where
  make : List Node → Node
  inner : Enclosure
  directive : List Token
  opens : List Token
  closes : List Token
  opening : List Char
  closing : List Char
  directive_make (items : List Node) : LatexFormatter.directive (make items) = directive
  ofNode_make (items : List Node) : Token.ofNode (make items)
    = directive ++ (opens ++ (Token.ofNodes items ++ inner.close) ++ closes)
  solids_opens (lead : Lead) : solids lead opens = [(lead, opening)]
  afterAll_opens (lead : Lead) : lead.afterAll opens = inner.start
  solids_closes (lead : Lead) : solids lead closes = [(lead, closing)]
  normalize_make (items : List Node) :
    (make items).normalize = make (collapse inner.inBody (items.map normalize))
  isSpace_make (items : List Node) : (make items).isSpace = false
  isEnvironmentLike_make (items found : List Node) :
    (make items).isEnvironmentLike = (make found).isEnvironmentLike
  suits_make {items : List Node} (hspaced : Spaced false items) (h : SuitsAll .bare items) :
    (make items).Suits .bare
  breaks_make {items : List Node} (h : breaksAtBlocks (make items) = true) :
    allBreakAtBlocks items = true ∧ (inner.ownLine = true → inner.inBody = true)

namespace Shell

def ofGroup : Shell where
  make := .group
  inner := .braces
  directive := []
  opens := [.noWrap, .text "\x7b"]
  closes := [.text "\x7d", .endNoWrap]
  opening := ['{']
  closing := ['}']
  directive_make _ := rfl
  ofNode_make items := by simp [Token.ofNode, Enclosure.close, Enclosure.braces]
  solids_opens _ := rfl
  afterAll_opens _ := rfl
  solids_closes _ := rfl
  normalize_make := normalize_group
  isSpace_make _ := rfl
  isEnvironmentLike_make _ _ := rfl
  suits_make hspaced h := ⟨fun _ => hspaced, h⟩
  breaks_make h := ⟨h, by decide⟩

def ofInlineMath : Shell where
  make := .inlineMath
  inner := .formula
  directive := []
  opens := [.text "$"]
  closes := [.text "$"]
  opening := ['$']
  closing := ['$']
  directive_make _ := rfl
  ofNode_make items := by simp [Token.ofNode, Enclosure.close, Enclosure.formula]
  solids_opens _ := rfl
  afterAll_opens _ := rfl
  solids_closes _ := rfl
  normalize_make := normalize_inlineMath
  isSpace_make _ := rfl
  isEnvironmentLike_make _ _ := rfl
  suits_make hspaced h := ⟨fun _ => hspaced, h⟩
  breaks_make h := ⟨h, by decide⟩

def ofDisplayMath : Shell where
  make := .displayMath
  inner := .display
  directive := [.ensureNewline]
  opens := [.text "\\[", .indent, .newline]
  closes := [.text "\\]"]
  opening := ['\\', '[']
  closing := ['\\', ']']
  directive_make _ := rfl
  ofNode_make items := by simp [Token.ofNode, Enclosure.close, Enclosure.display]
  solids_opens _ := rfl
  afterAll_opens _ := rfl
  solids_closes _ := rfl
  normalize_make := normalize_displayMath
  isSpace_make _ := rfl
  isEnvironmentLike_make _ _ := rfl
  suits_make hspaced h := ⟨by simp, fun _ => hspaced, h⟩
  breaks_make h := by cases h

def ofEnvironment (name : String) : Shell where
  make := .environment name none
  inner := .body
  directive := [.ensureNewline]
  opens := [Token.chars (openingTag name), .indent, .newline]
  closes := [Token.chars (closingTag name)]
  opening := openingTag name
  closing := closingTag name
  directive_make _ := rfl
  ofNode_make items := by simp [Token.ofNode, Token.ofArgs, Enclosure.close, Enclosure.body]
  solids_opens _ := by simp [solids]
  afterAll_opens _ := by simp [Enclosure.start, Enclosure.body]
  solids_closes _ := by simp [solids]
  normalize_make := normalize_environment name
  isSpace_make _ := rfl
  isEnvironmentLike_make _ _ := rfl
  suits_make hspaced h := ⟨by simp, trivial, fun _ => hspaced, h⟩
  breaks_make h := ⟨h, fun _ => rfl⟩

def ofMathEnvironment (name : String) : Shell where
  make := .mathEnvironment name
  inner := .mathBody
  directive := [.ensureNewline]
  opens := [Token.chars (openingTag name), .indent, .newline]
  closes := [Token.chars (closingTag name)]
  opening := openingTag name
  closing := closingTag name
  directive_make _ := rfl
  ofNode_make items := by simp [Token.ofNode, Enclosure.close, Enclosure.mathBody]
  solids_opens _ := by simp [solids]
  afterAll_opens _ := by simp [Enclosure.start, Enclosure.mathBody]
  solids_closes _ := by simp [solids]
  normalize_make := normalize_mathEnvironment name
  isSpace_make _ := rfl
  isEnvironmentLike_make _ _ := rfl
  suits_make hspaced h := ⟨by simp, fun _ => hspaced, h⟩
  breaks_make h := ⟨h, fun _ => rfl⟩

end Shell

/-- The text between what opens and what closes a list is read as a list that what is
regained comes from. -/
structure ReadsBetween (inner : Enclosure) (items raw : List Node) (text : List Char) : Prop where
  spelled : Spelled inner.mode false raw text
  regained : Regained inner inner.inBody inner.start items
    (collapse inner.inBody (raw.map normalize))
  filled : inner.start = .tight → items ≠ [] → text ≠ []
  brackets : OpensArguments text → opensArguments items = true

/-- Whatever has been printed of the list inside of its enclosure is read again. -/
def ReadsInside (inner : Enclosure) (items : List Node) : Prop :=
  ∀ solid text blanks, Laid (solids inner.start (Token.ofNodes items)) text →
    (inner.start.afterAll (Token.ofNodes items ++ inner.close)).Fits solid blanks →
    ∃ raw, ReadsBetween inner items raw (text ++ blanks)

theorem solids_directive (lead : Lead) (node : Node) : solids lead (directive node) = [] := by
  rcases directive_cases node with h | h | h <;> rw [h] <;> rfl

/-- What has been printed of a node around a list. -/
theorem Shell.of_laid (shell : Shell) {items : List Node} {lead : Lead} {text : List Char}
    (hinside : ReadsInside shell.inner items)
    (h : Laid (solids lead (Token.ofNode (shell.make items))) text) :
    ∃ blanks whole raw, ReadsBetween shell.inner items raw whole ∧
      (lead.afterAll (LatexFormatter.directive (shell.make items))).Fits shell.opening blanks ∧
      text = blanks ++ (shell.opening ++ whole ++ shell.closing) := by
  have hdirective : ∀ lead, solids lead shell.directive = [] := fun lead => by
    rw [← shell.directive_make items, solids_directive]
  rw [shell.ofNode_make, solids_append, hdirective, List.nil_append, solids_append, solids_append,
    shell.solids_opens, shell.solids_closes, Lead.afterAll_append _ shell.opens,
    shell.afterAll_opens,
    solids_append, Enclosure.solids_close, List.append_nil] at h
  obtain ⟨blanks, inner, blanks', hf, hinner, hf', rfl⟩ := h.of_enclosed
  obtain ⟨raw, hbetween⟩ := hinside shell.closing inner blanks' hinner hf'
  refine ⟨blanks, inner ++ blanks', raw, hbetween, ?_, rfl⟩
  rwa [shell.directive_make]

/-- What comes to the same inside of its enclosure comes to the same with the node around
it. -/
theorem Shell.samePrint (shell : Shell) {items raw : List Node} {text : List Char}
    (h : ReadsBetween shell.inner items raw text) :
    SamePrint (shell.make items) (shell.make raw).normalize := by
  rw [shell.normalize_make]
  obtain ⟨halike, hsuits, hsame⟩ := h.regained
  refine ⟨shell.isSpace_make _, shell.isEnvironmentLike_make _ _, fun lead => ?_,
    shell.suits_make (spaced_collapseFrom _ _ _ _) hsuits, fun hbreaks => ?_⟩
  · rw [shell.ofNode_make, shell.ofNode_make]
    refine Alike.behind _ (Alike.before (Alike.behind _ ?_) _)
    rw [shell.afterAll_opens]
    exact halike
  · obtain ⟨hblocks, hclosing⟩ := shell.breaks_make hbreaks
    rw [hsame
      ⟨hblocks, fun hstart => absurd hstart shell.inner.start_ne, fun hline => ?_, hclosing⟩]
    refine hclosing ?_
    cases hown : shell.inner.ownLine with
    | true => rfl
    | false => simp [Enclosure.start, hown] at hline

/-- A node at a joint: what is known of it in its list, what has been printed of it, and the
rest of the list behind it. -/
structure AtJoint (enclosure : Enclosure) (dropsBefore : Bool) (lead : Lead) (run : Option Bool)
    (node : Node) (rest : List Node) (front blanks text : List Char) : Prop where
  joint : Joint enclosure lead run (directive node) dropsBefore node.isEnvironmentLike
  orderly : Orderly enclosure.mode node
  isSpace : node.isSpace = false
  ends : Ends enclosure.mode rest node
  apart : enclosure.mode = .math → (node.takesSpace = true → startsSpaced rest = false) ∧
    (node.takesSpaceBefore = true → run = none)
  laid : Laid (solids (lead.afterAll (Token.ofNodes (runNodes run))) (Token.ofNode node)) front
  jointText : JointText enclosure node.isEnvironmentLike (leadAfter node) rest blanks text

/-- The text begins with the blanks of a joint, and what stands for the list follows. -/
def Lands (enclosure : Enclosure) (dropsBefore : Bool) (lead : Lead) (items : List Node)
    (whole : List Char) : Prop :=
  ∃ blanks text, whole = blanks ++ text ∧ JointText enclosure dropsBefore lead items blanks text

namespace AtJoint

variable {enclosure : Enclosure} {dropsBefore : Bool} {lead : Lead} {run : Option Bool}
  {node : Node} {rest : List Node} {front blanks text : List Char}

/-- What has been printed of a node lands if it is read back. -/
theorem lands {solid solid' blanks' : List Char} {c : Char}
    (h : AtJoint enclosure dropsBefore lead run node rest front blanks text)
    (hfront : front = blanks' ++ solid)
    (hf : (leadAt lead run (directive node)).Fits solid' blanks')
    (hhead : solid.head? = some c) (hbegins : Begins enclosure.mode node c)
    (hstring : ∀ content, node = .string content → content.toList ≠ [] ∧
      Continues (node :: rest) (solid ++ (blanks ++ text)))
    (hreads : ReadsNode enclosure node rest (solid ++ (blanks ++ text))) :
    Lands enclosure dropsBefore lead (runNodes run ++ node :: rest)
      (front ++ (blanks ++ text)) := by
  subst hfront
  obtain ⟨more, rfl⟩ : ∃ more, solid = c :: more := by
    cases solid with
    | nil => cases hhead
    | cons d more => exact ⟨more, by simpa using hhead⟩
  refine ⟨blanks', c :: more ++ (blanks ++ text), by simp, ?_⟩
  exact jointText_cons h.isSpace h.joint hf hbegins rfl hstring (fun hmath => (h.apart hmath).2)
    (afterAll_ofNode h.orderly h.isSpace) hreads

/-- A node that begins with a special character is no part of a word. -/
theorem lands_of_special {solid solid' blanks' : List Char} {c : Char}
    (h : AtJoint enclosure dropsBefore lead run node rest front blanks text)
    (hfront : front = blanks' ++ solid)
    (hf : (leadAt lead run (directive node)).Fits solid' blanks')
    (hhead : solid.head? = some c) (hc : isSpecial c = true ∧ isBlank c = false ∧ c ≠ '%')
    (hnode : node.isString = false)
    (htakes : takesBlanks c = true → node.takesSpaceBefore = true)
    (hreads : ReadsNode enclosure node rest (solid ++ (blanks ++ text))) :
    Lands enclosure dropsBefore lead (runNodes run ++ node :: rest)
      (front ++ (blanks ++ text)) := by
  refine h.lands hfront hf hhead ⟨hc.2.1, hc.2.2, fun _ => hc.1, fun _ => htakes⟩ ?_ hreads
  rintro content rfl
  cases hnode

/-! ### Strings -/

theorem lands_word {content : String} (htext : enclosure.mode = .text)
    (hne : content.toList ≠ [])
    (hc : ∀ c ∈ content.toList, isPlain c = true ∨ isPunctuation c = true)
    (h : AtJoint enclosure dropsBefore lead run (.string content) rest front blanks text) :
    Lands enclosure dropsBefore lead (runNodes run ++ .string content :: rest)
      (front ++ (blanks ++ text)) := by
  obtain ⟨blanks', hf, rfl⟩ := Laid.of_single h.laid
  have hspecial : ∀ c ∈ content.toList, isSpecial c = false := fun c hmem =>
    isSpecial_of_word (hc c hmem)
  have hsolid : ∀ c ∈ content.toList, isBlank c = false := fun c hmem =>
    (hc c hmem).elim isBlank_of_isPlain isBlank_of_isPunctuation
  have hmark : (Node.string content).isMark = false := by
    rw [Bool.eq_false_iff]
    intro hmark
    rcases isMark_string.1 hmark with hcontent | hcontent
    · exact absurd (hspecial '&' (by simp [hcontent])) (by decide)
    · exact absurd (hspecial '#' (by simp [hcontent])) (by decide)
  obtain ⟨c, cs, hcontent⟩ := List.exists_cons_of_ne_nil hne
  have hcontinues := h.jointText.continues rfl
  refine h.lands rfl (by simpa [directive] using hf) (by simp [hcontent]) (c := c)
    ⟨hsolid c (by simp [hcontent]), ?_, by simp [isString], fun hmath => ?_⟩ ?_ ?_
  · rintro rfl
    exact absurd (hspecial '%' (by simp [hcontent])) (by decide)
  · rw [htext] at hmath
    cases hmath
  · rintro other hother
    cases hother
    exact ⟨hne, hcontinues.string⟩
  · have hlength : wordLength (content.toList ++ (blanks ++ text)) = content.toList.length := by
      obtain ⟨after, hafter, hsealed⟩ := hcontinues
      rw [hafter, ← List.append_assoc, wordLength_append (by simp [hne]) hsealed]
      exact (h.ends htext).2.resolve_left (by simp [hmark])
    refine readsNode_of_spelled h.jointText rfl
      (samePrint_self rfl rfl (suits_of_orderly _ h.orderly trivial)) ?_
    intro fresh before raw hbefore hraw
    obtain rfl := hbefore.eq_nil hmark
    rw [htext] at hraw ⊢
    exact .string content hne hc hlength hraw

theorem lands_mathChar {content : String} {c : Char} (hmath : enclosure.mode = .math)
    (hcontent : content.toList = [c]) (hc : isMathChar c = true)
    (h : AtJoint enclosure dropsBefore lead run (.string content) rest front blanks text) :
    Lands enclosure dropsBefore lead (runNodes run ++ .string content :: rest)
      (front ++ (blanks ++ text)) := by
  obtain ⟨blanks', hf, rfl⟩ := Laid.of_single h.laid
  obtain ⟨hblank, -, -, hand, hhash, -, -⟩ := isMathChar_iff.1 hc
  have hmark : (Node.string content).isMark = false := by
    rw [Bool.eq_false_iff]
    intro hmark
    rcases isMark_string.1 hmark with hother | hother <;> rw [hcontent] at hother <;>
      obtain ⟨rfl, -⟩ := List.cons.inj hother
    · exact hand rfl
    · exact hhash rfl
  have hstring : content = String.ofList [c] := by rw [← hcontent, String.ofList_toList]
  refine h.lands rfl (by simpa [directive] using hf) (by simp [hcontent]) (c := c)
    ⟨hblank, ne_of_isMathChar hc (by decide), by simp [isString], fun _ htakes => ?_⟩ ?_ ?_
  · rw [takesBlanks_of_isMathChar hc] at htakes
    cases htakes
  · rintro other hother
    cases hother
    exact ⟨by simp [hcontent], (h.jointText.continues rfl).string⟩
  · refine readsNode_of_spelled h.jointText rfl
      (samePrint_self rfl rfl (suits_of_orderly _ h.orderly trivial)) ?_
    intro fresh before raw hbefore hraw
    obtain rfl := hbefore.eq_nil hmark
    rw [hmath] at hraw ⊢
    rw [hstring, String.toList_ofList]
    exact .char c hc hraw

theorem lands_mark {content : String} {c : Char} (hcontent : content.toList = [c])
    (hc : c = '&' ∨ c = '#')
    (h : AtJoint enclosure dropsBefore lead run (.string content) rest front blanks text) :
    Lands enclosure dropsBefore lead (runNodes run ++ .string content :: rest)
      (front ++ (blanks ++ text)) := by
  obtain ⟨blanks', hf, rfl⟩ := Laid.of_single h.laid
  have hmark : (Node.string content).isMark = true := by
    rw [isMark_string, hcontent]
    rcases hc with rfl | rfl <;> simp
  have hstring : content = String.ofList [c] := by rw [← hcontent, String.ofList_toList]
  have hblank : isBlank c = false := by rcases hc with rfl | rfl <;> rfl
  refine h.lands rfl (by simpa [directive] using hf) (by simp [hcontent]) (c := c)
    ⟨hblank, ?_, by simp [isString], fun _ _ => hmark⟩ ?_ ?_
  · rcases hc with rfl | rfl <;> decide
  · rintro other hother
    cases hother
    exact ⟨by simp [hcontent], (h.jointText.continues rfl).string⟩
  · refine readsNode_of_around h.jointText rfl (fun hmath => (h.apart hmath).1 hmark)
      (samePrint_self rfl rfl (suits_of_orderly _ h.orderly trivial)) ?_
    intro fresh before after left raw _ ha hraw
    have hspelled : Spelled enclosure.mode fresh (.string (String.ofList [c]) :: raw)
        (before ++ c :: after ++ (left ++ text)) := .mark c hc ha hraw
    rw [hcontent, hstring]
    simpa using hspelled

/-! ### Nodes around a list -/

/-- What has been printed of a node around a list. -/
theorem of_shell (shell : Shell) {items : List Node} (hinside : ReadsInside shell.inner items)
    (h : AtJoint enclosure dropsBefore lead run (shell.make items) rest front blanks text) :
    ∃ blanks' whole raw, ReadsBetween shell.inner items raw whole ∧
      (leadAt lead run (directive (shell.make items))).Fits shell.opening blanks' ∧
      front = blanks' ++ (shell.opening ++ whole ++ shell.closing) := by
  rw [leadAt, Lead.afterAll_append]
  exact shell.of_laid hinside h.laid

/-- A node around a list, that no blanks belong to. -/
theorem lands_shell (shell : Shell) {items : List Node} {c : Char} {opening : List Char}
    (hinside : ReadsInside shell.inner items) (hopening : shell.opening = c :: opening)
    (hc : isSpecial c = true ∧ isBlank c = false ∧ c ≠ '%') (hno : takesBlanks c = false)
    (hnode : (shell.make items).isString = false ∧ (shell.make items).takesSpaceBefore = false)
    (hafter : leadAfter (shell.make items) = .tight)
    (h : AtJoint enclosure dropsBefore lead run (shell.make items) rest front blanks text)
    (hspelled : ∀ {fresh inner raw raw' more}, ReadsBetween shell.inner items raw inner →
      Spelled enclosure.mode false raw' more →
      Spelled enclosure.mode fresh (shell.make raw :: raw')
        (shell.opening ++ inner ++ shell.closing ++ more)) :
    Lands enclosure dropsBefore lead (runNodes run ++ shell.make items :: rest)
      (front ++ (blanks ++ text)) := by
  obtain ⟨blanks', inner, raw, hbetween, hf, rfl⟩ := h.of_shell shell hinside
  refine h.lands_of_special rfl hf (by simp [hopening]) hc hnode.1 (by simp [hno]) ?_
  have htight := h.jointText
  rw [hafter] at htight
  refine readsNode_of_spelled htight hafter (shell.samePrint hbetween) ?_
  intro fresh before raw' hbefore hraw
  obtain rfl := hbefore.eq_nil hnode.2
  exact hspelled hbetween hraw

theorem lands_inlineMath {items : List Node} (hinside : ReadsInside .formula items)
    (h : AtJoint enclosure dropsBefore lead run (.inlineMath items) rest front blanks text) :
    Lands enclosure dropsBefore lead (runNodes run ++ .inlineMath items :: rest)
      (front ++ (blanks ++ text)) := by
  obtain ⟨htext, hne, -⟩ := h.orderly
  refine lands_shell .ofInlineMath hinside rfl (by decide) rfl ⟨rfl, rfl⟩ rfl h ?_
  intro fresh inner raw raw' more hbetween hraw'
  rw [htext] at hraw' ⊢
  exact .inlineMath (hbetween.filled rfl hne) hbetween.spelled hraw'

theorem lands_displayMath {items : List Node} (hinside : ReadsInside .display items)
    (h : AtJoint enclosure dropsBefore lead run (.displayMath items) rest front blanks text) :
    Lands enclosure dropsBefore lead (runNodes run ++ .displayMath items :: rest)
      (front ++ (blanks ++ text)) :=
  lands_shell .ofDisplayMath hinside rfl (by decide) rfl ⟨rfl, rfl⟩ rfl h
    fun hbetween hraw' => .displayMath hbetween.spelled hraw'

theorem lands_environment {name : String} {items : List Node} (hinside : ReadsInside .body items)
    (h : AtJoint enclosure dropsBefore lead run (.environment name none items) rest front blanks
      text) :
    Lands enclosure dropsBefore lead (runNodes run ++ .environment name none items :: rest)
      (front ++ (blanks ++ text)) := by
  obtain ⟨-, hname, hopens, -⟩ := h.orderly
  refine lands_shell (.ofEnvironment name) hinside rfl (by decide) rfl ⟨rfl, rfl⟩ rfl h ?_
  intro fresh inner raw raw' more hbetween hraw'
  refine .environment name hname (fun hbracket => ?_) hbetween.spelled hraw'
  rw [hbetween.brackets hbracket] at hopens
  cases hopens

theorem lands_mathEnvironment {name : String} {items : List Node}
    (hinside : ReadsInside .mathBody items)
    (h : AtJoint enclosure dropsBefore lead run (.mathEnvironment name items) rest front blanks
      text) :
    Lands enclosure dropsBefore lead (runNodes run ++ .mathEnvironment name items :: rest)
      (front ++ (blanks ++ text)) :=
  lands_shell (.ofMathEnvironment name) hinside rfl (by decide) rfl ⟨rfl, rfl⟩ rfl h
    fun hbetween hraw' => .mathEnvironment name h.orderly.1 hbetween.spelled hraw'

/-- In math, a group takes along the blanks on both sides. -/
theorem lands_group {items : List Node} (hinside : ReadsInside .braces items)
    (h : AtJoint enclosure dropsBefore lead run (.group items) rest front blanks text) :
    Lands enclosure dropsBefore lead (runNodes run ++ .group items :: rest)
      (front ++ (blanks ++ text)) := by
  obtain ⟨blanks', inner, raw, hbetween, hf, rfl⟩ := of_shell .ofGroup hinside h
  refine h.lands_of_special rfl hf rfl (by decide) rfl (by simp [takesSpaceBefore, takesSpace]) ?_
  refine readsNode_of_around h.jointText rfl (fun hmath => (h.apart hmath).1 rfl)
    (Shell.ofGroup.samePrint hbetween) ?_
  intro fresh before after left raw' _ ha hraw'
  have hspelled : Spelled enclosure.mode fresh (.group raw :: raw')
      (before ++ '{' :: inner ++ '}' :: after ++ (left ++ text)) :=
    .group ha hbetween.spelled hraw'
  simpa [Shell.ofGroup] using hspelled

/-! ### Commands and literal text -/

/-- A node that is one solid text behind its directive. -/
theorem of_solid {solid : List Char}
    (h : AtJoint enclosure dropsBefore lead run node rest front blanks text)
    (hsolid : ∀ lead : Lead,
      solids lead (Token.ofNode node) = [(lead.afterAll (directive node), solid)]) :
    ∃ blanks', (leadAt lead run (directive node)).Fits solid blanks' ∧
      front = blanks' ++ solid := by
  have hlaid := h.laid
  rw [hsolid, ← Lead.afterAll_append] at hlaid
  exact hlaid.of_single

theorem solids_command (name : String) (lead : Lead) :
    solids lead (Token.ofNode (.command name none))
      = [(lead.afterAll (directive (.command name none)), '\\' :: name.toList)] := by
  rcases directive_cases (.command name none) with h | h | h <;>
    simp_all [Token.ofNode, Token.ofArgs, directive, solids]

theorem lands_command {name : String}
    (hname : IsCommandName name.toList ∨ ∃ c, name.toList = [c] ∧ IsSymbol c)
    (h : AtJoint enclosure dropsBefore lead run (.command name none) rest front blanks text) :
    Lands enclosure dropsBefore lead (runNodes run ++ .command name none :: rest)
      (front ++ (blanks ++ text)) := by
  obtain ⟨blanks', hf, rfl⟩ := h.of_solid (solids_command name)
  obtain ⟨hopens, hletters⟩ := h.ends
  have hargs : ¬ OpensArguments (blanks ++ text) := by
    intro hbracket
    rw [h.jointText.brackets (by simp [leadAfter]) hbracket] at hopens
    cases hopens
  refine h.lands_of_special rfl hf rfl (by decide) rfl (by simp [takesBlanks]) ?_
  refine readsNode_of_spelled h.jointText rfl
    (samePrint_self rfl rfl (suits_of_orderly _ h.orderly trivial)) ?_
  intro fresh before raw hbefore hraw
  obtain rfl := hbefore.eq_nil rfl
  rcases hname with hname | ⟨c, hcontent, hc⟩
  · refine .command name hname ?_ hargs hraw
    obtain ⟨after, hafter, hsealed⟩ := h.jointText.continues rfl
    rw [hafter]
    intro c hmem
    rcases mem_head?_append hmem with hmem | hmem
    · exact hletters hname.letters c hmem
    · exact (of_isSpecial (hsealed c hmem)).2.2.1
  · have hstring : name = String.ofList [c] := by rw [← hcontent, String.ofList_toList]
    rw [hcontent, hstring]
    exact .symbol c hc.not_letter hc.not_blank hc.not_delimiter hargs hraw

theorem lands_verb {delimiter : Char} {content : String}
    (h : AtJoint enclosure dropsBefore lead run (.verb delimiter content) rest front blanks text) :
    Lands enclosure dropsBefore lead (runNodes run ++ .verb delimiter content :: rest)
      (front ++ (blanks ++ text)) := by
  have hsolids : ∀ lead : Lead, solids lead (Token.ofNode (.verb delimiter content))
      = [(lead.afterAll (directive (.verb delimiter content)),
        (Node.verb delimiter content).display)] := by
    simp [Token.ofNode, Token.literal, directive, solids]
  obtain ⟨blanks', hf, rfl⟩ := h.of_solid hsolids
  obtain ⟨hletter, hwhite, hcontent⟩ := h.orderly
  refine h.lands_of_special rfl hf rfl (by decide) rfl (by simp [takesBlanks]) ?_
  refine readsNode_of_spelled h.jointText rfl
    (samePrint_self rfl rfl (suits_of_orderly _ h.orderly trivial)) ?_
  intro fresh before raw hbefore hraw
  obtain rfl := hbefore.eq_nil rfl
  simpa [display] using Spelled.verb delimiter content hletter hwhite hcontent hraw

theorem lands_verbatim {content : String}
    (h : AtJoint enclosure dropsBefore lead run (.verbatim content) rest front blanks text) :
    Lands enclosure dropsBefore lead (runNodes run ++ .verbatim content :: rest)
      (front ++ (blanks ++ text)) := by
  have hsolids : ∀ lead : Lead, solids lead (Token.ofNode (.verbatim content))
      = [(lead.afterAll (directive (.verbatim content)), (Node.verbatim content).display)] := by
    simp [Token.ofNode, Token.literal, directive, solids]
  obtain ⟨blanks', hf, rfl⟩ := h.of_solid hsolids
  refine h.lands_of_special rfl hf rfl (by decide) rfl (by simp [takesBlanks]) ?_
  refine readsNode_of_spelled h.jointText rfl
    (samePrint_self rfl rfl (suits_of_orderly _ h.orderly trivial)) ?_
  intro fresh before raw hbefore hraw
  obtain rfl := hbefore.eq_nil rfl
  exact .verbatim content h.orderly hraw

/-- A block comment takes along the line ending behind it. -/
theorem lands_commentEnvironment {content : String}
    (h : AtJoint enclosure dropsBefore lead run (.commentEnvironment content) rest front blanks
      text) :
    Lands enclosure dropsBefore lead (runNodes run ++ .commentEnvironment content :: rest)
      (front ++ (blanks ++ text)) := by
  have hsolids : ∀ lead : Lead, solids lead (Token.ofNode (.commentEnvironment content))
      = [(lead.afterAll (directive (.commentEnvironment content)),
        (Node.commentEnvironment content).display)] := by
    simp [Token.ofNode, Token.literal, directive, solids]
  obtain ⟨blanks', hf, rfl⟩ := h.of_solid hsolids
  refine h.lands_of_special rfl hf rfl (by decide) rfl (by simp [takesBlanks]) ?_
  obtain ⟨left, rfl⟩ : ∃ left, blanks = '\n' :: left := by
    rcases h.jointText.line rfl with ⟨margin, rfl, -⟩ | ⟨more, rfl, -⟩
    · exact ⟨margin, rfl⟩
    · exact ⟨more, rfl⟩
  obtain ⟨raw, hraw, hmore⟩ :=
    h.jointText.reads ['\n'] left rfl (Or.inr (Or.inl ⟨rfl, rfl, Or.inl rfl⟩))
  refine ⟨.commentEnvironment content, raw,
    samePrint_self rfl rfl (suits_of_orderly _ h.orderly trivial), ?_, hmore⟩
  intro fresh before hbefore
  obtain rfl := hbefore.eq_nil rfl
  have hspelled : Spelled enclosure.mode fresh (.commentEnvironment content :: raw)
      ((Node.commentEnvironment content).display ++ ['\n'] ++ (left ++ text)) :=
    .commentEnvironment content h.orderly hraw
  simpa using hspelled

theorem lands_comment {content : String} {sameline : Bool}
    (h : AtJoint enclosure dropsBefore lead run (.comment content sameline) rest front blanks
      text) :
    Lands enclosure dropsBefore lead (runNodes run ++ .comment content sameline :: rest)
      (front ++ (blanks ++ text)) := by
  have hsolids : ∀ lead : Lead, solids lead (Token.ofNode (.comment content sameline))
      = [(lead.afterAll (directive (.comment content sameline)), '%' :: content.toList)] := by
    intro lead
    cases sameline <;> simp [Token.ofNode, directive, solids]
  obtain ⟨blanks', hf, rfl⟩ := h.of_solid hsolids
  obtain ⟨hbreaks, hlast⟩ := h.orderly
  exact ⟨blanks', '%' :: content.toList ++ (blanks ++ text), by simp,
    jointText_comment h.joint hf hbreaks (endsFirm_of_comment hlast) h.jointText⟩

/-! ### Scripts -/

/-- A script whose base is a single character, in braces or not. -/
theorem lands_scriptChar {mark : Mark} {base : Node} {c : Char}
    (hsingle : base.singleChar? = some c)
    (h : AtJoint enclosure dropsBefore lead run (.script mark (some base)) rest front blanks text) :
    Lands enclosure dropsBefore lead (runNodes run ++ .script mark (some base) :: rest)
      (front ++ (blanks ++ text)) := by
  have htokens : ∀ other : Node, other.singleChar? = some c →
      Token.ofNode (.script mark (some other)) = [Token.chars [mark.char, c]] := by
    intro other hother
    simp [Token.ofNode, Token.ofScript, hother]
  have hsolids : ∀ lead : Lead, solids lead (Token.ofNode (.script mark (some base)))
      = [(lead.afterAll (directive (.script mark (some base))), [mark.char, c])] := by
    intro lead
    rw [htokens base hsingle]
    simp [directive, solids]
  obtain ⟨blanks', hf, rfl⟩ := h.of_solid hsolids
  have hc : isMathChar c = true := h.orderly.2.1 c hsingle
  have hstring : (Node.string (String.ofList [c])).singleChar? = some c := by
    simp [singleChar?, singleChar?.ofString]
  have hfirm : EndsFirm [c] :=
    endsFirm_singleton (isSpace_of_isBlank_eq_false (isBlank_of_isMathChar hc))
  have hmade : SamePrint (.script mark (some base))
      (Node.normalize (.script mark (some (.string (String.ofList [c]))))) := by
    refine ⟨rfl, rfl, fun lead => ?_, ?_, by simp [breaksAtBlocks]⟩
    · rw [htokens base hsingle]
      exact htokens _ hstring ▸ .rfl
    · have hsuits : (Node.string (String.ofList [c])).Suits .bare := by
        simpa [Suits, Care.Admits] using hfirm
      refine ⟨fun d hd => ?_, hsuits⟩
      obtain rfl : c = d := Option.some_inj.1 (hstring.symm.trans hd)
      exact hfirm
  refine h.lands_of_special rfl hf rfl (by cases mark <;> decide) rfl
    (by simp [takesSpaceBefore]) ?_
  refine readsNode_of_spelled h.jointText rfl hmade ?_
  intro fresh before raw hbefore hraw
  have hspelled : Spelled enclosure.mode fresh
      (.script mark (some (.string (String.ofList [c]))) :: raw)
      (before ++ [mark.char, c] ++ (blanks ++ text)) := .scriptChar mark c hbefore.takes hc hraw
  simpa using hspelled

theorem ofNode_ne_nil {mode : Mode} (ho : Orderly mode node) : Token.ofNode node ≠ [] := by
  cases node with
  | list | arguments => exact ho.elim
  | script mark base =>
    cases base with
    | none => exact ho.elim
    | some base =>
      simp only [Token.ofNode, Token.ofScript]
      split
      · simp
      · split <;> simp
  | _ => simp [Token.ofNode, Token.literal]

/-- Only a string is printed as one character and nothing else. -/
theorem eq_string_of_ofNode {mode : Mode} {content : String} {c : Char} (ho : Orderly mode node)
    (hcontent : content.toList = [c]) (h : Token.ofNode node = [.text content]) :
    node = .string content := by
  have hlong : ∀ d e more, content.toList ≠ d :: e :: more := by simp [hcontent]
  have hchars : ∀ text, Token.chars text = .text content → content.toList = text := by
    rintro text heq
    simp only [Token.chars, Token.text.injEq] at heq
    rw [← heq, String.toList_ofList]
  cases node with
  | string other =>
    simp only [Token.ofNode, List.cons.injEq, Token.text.injEq, and_true] at h
    rw [h]
  | command name args =>
    obtain ⟨rfl, hname⟩ := ho
    obtain ⟨d, more, hname⟩ : ∃ d more, name.toList = d :: more := by
      rcases hname with hname | ⟨d, hname, -⟩
      · exact List.exists_cons_of_ne_nil hname.ne_nil
      · exact ⟨d, [], hname⟩
    rw [show Token.ofNode (.command name none)
      = directive (.command name none) ++ [Token.chars ('\\' :: name.toList)] from rfl] at h
    rcases directive_cases (.command name none) with hd | hd | hd <;> rw [hd] at h
    · exact absurd (hchars _ (List.cons.inj h).1) (hname ▸ hlong _ _ _)
    · cases h
    · cases h
  | list | arguments => exact ho.elim
  | comment text sameline => cases sameline <;> simp [Token.ofNode] at h
  | script mark base =>
    cases base with
    | none => exact ho.elim
    | some base =>
      simp only [Token.ofNode, Token.ofScript] at h
      split at h
      · next d _ => exact absurd (hchars _ (by simpa using h)) (hlong _ _ _)
      · split at h
        · have hnil : Token.ofNode base = [] := (List.cons.inj h).2
          exact absurd hnil (ofNode_ne_nil ho.2.2)
        · simp at h
  | _ => simp [Token.ofNode, Token.literal] at h

/-- A list that comes to a single character is that character. -/
theorem singleChar?_of_alike {mode : Mode} {items found : List Node} {c : Char}
    (ho : OrderlyAll mode items)
    (h : Alike .tight .tight (Token.ofNodes items) (Token.ofNodes found))
    (hsingle : (Node.group found).singleChar? = some c) :
    (Node.group items).singleChar? = some c := by
  obtain ⟨content, hcontent, hfound⟩ := singleChar?_cases hsingle
  obtain rfl : found = [.string content] := by simpa using hfound
  have htokens : Token.ofNodes items = [.text content] :=
    Lead.eq_of_effects_tight (h.1.trans rfl) (h.2.trans rfl)
  cases items with
  | nil => cases htokens
  | cons node rest =>
    obtain ⟨token, more, hnode⟩ := List.exists_cons_of_ne_nil (ofNode_ne_nil ho.1)
    have hsplit : token :: (more ++ Token.ofNodes rest) = [.text content] := by
      rw [← htokens, Token.ofNodes, hnode, List.cons_append]
    obtain ⟨rfl, hrest⟩ := List.cons.inj hsplit
    obtain ⟨rfl, hnil⟩ := List.append_eq_nil_iff.1 hrest
    obtain rfl := eq_string_of_ofNode ho.1 hcontent hnode
    cases rest with
    | nil => exact hsingle
    | cons next rest => exact absurd (List.append_eq_nil_iff.1 hnil).1 (ofNode_ne_nil ho.2.1)

/-- A script whose base is in braces that it needs. -/
theorem lands_scriptGroup {mark : Mark} {items : List Node} (hinside : ReadsInside .braces items)
    (hsingle : (Node.group items).singleChar? = none)
    (h : AtJoint enclosure dropsBefore lead run (.script mark (some (.group items))) rest front
      blanks text) :
    Lands enclosure dropsBefore lead (runNodes run ++ .script mark (some (.group items)) :: rest)
      (front ++ (blanks ++ text)) := by
  have htokens : ∀ items : List Node, (Node.group items).singleChar? = none →
      Token.ofNode (.script mark (some (.group items)))
        = Token.chars [mark.char] :: Token.ofNode (.group items) := by
    intro items hitems
    simp [Token.ofNode, Token.ofScript, hitems, isGroup]
  have hlaid := h.laid
  rw [htokens items hsingle, solids_chars] at hlaid
  cases hlaid with
  | @cons _ blanks' more _ _ hf hgroup =>
    obtain ⟨none', whole, raw, hbetween, hnone, rfl⟩ := Shell.ofGroup.of_laid hinside hgroup
    obtain rfl : none' = [] := hnone
    have hmade : SamePrint (.script mark (some (.group items)))
        (Node.normalize (.script mark (some (.group raw)))) := by
      rw [normalize_script]
      have hbase : SamePrint (.group items) (Node.normalize (.group raw)) :=
        Shell.ofGroup.samePrint hbetween
      obtain ⟨-, -, halike, hsuits, -⟩ := hbase
      have hneeds : (Node.group raw).normalize.singleChar? = none := by
        rw [normalize_group]
        cases hfound : (Node.group (collapse false (raw.map normalize))).singleChar? with
        | none => rfl
        | some c =>
          have hinner : Alike .tight .tight (Token.ofNodes items ++ [])
              (Token.ofNodes (collapse false (raw.map normalize)) ++ []) := hbetween.regained.alike
          rw [List.append_nil, List.append_nil] at hinner
          rw [singleChar?_of_alike h.orderly.2.2.2 hinner hfound] at hsingle
          cases hsingle
      refine ⟨rfl, rfl, fun lead => ?_, ⟨by simp [hneeds], hsuits⟩, by simp [breaksAtBlocks]⟩
      rw [htokens items hsingle]
      rw [normalize_group] at hneeds halike ⊢
      rw [htokens _ hneeds]
      exact Alike.behind [Token.chars [mark.char]] (halike _)
    have hfits : (leadAt lead run []).Fits [mark.char] blanks' := by simpa [leadAt] using hf
    refine h.lands_of_special (List.append_assoc ..) hfits rfl (by cases mark <;> decide) rfl
      (by simp [takesSpaceBefore]) ?_
    refine readsNode_of_spelled h.jointText rfl hmade ?_
    intro fresh before raw' hbefore hraw
    have hspelled : Spelled enclosure.mode fresh (.script mark (some (.group raw)) :: raw')
        (before ++ [mark.char, '{'] ++ whole ++ ['}'] ++ (blanks ++ text)) :=
      .scriptGroup mark hbefore.takes hbetween.spelled hraw
    simpa [Shell.ofGroup] using hspelled

end AtJoint

end LatexFormatter
