import LatexFormatter.Proofs.Grammar.Derivation
import LatexFormatter.Proofs.Printing.RoundTrip
import LatexFormatter.Proofs.Printing.Wrapping

/-
  Formatting what has been formatted. A tree of simple nodes that comes from a text
  is orderly once it is normalized: its words and commands end where the text made
  them end, and normalization moves nothing up to a word or a command. What either
  printer makes of such a tree is read as one that comes to the same, so formatting
  again changes nothing (`format_stable`). With any base of a script this fails
  (`format_unstable_script`): a mark that is written as the base of a script in braces
  is printed without them, and then takes the space behind it along.
-/

namespace LatexFormatter

namespace Node

/-! ## Simple trees -/

/-- A name that is neither that of literal text nor a control space or what opens or
closes a formula. -/
def isPlainName (name : String) : Bool :=
  name != "verb" && match name.toList with
    | [c] => !isBlank c && c != '[' && c != ']' && c != '('
    | _ => true

/-- No arguments are opened behind a command, and in math no space stands beside what
would take it along. -/
def isSettled (mode : Mode) (rest : List Node) (node : Node) : Bool :=
  (!node.isCommand || !opensArguments rest) && (mode != .math || rest.head?.all (isApart node))

mutual

/-- Without arguments: commands and environments behind which nothing opens any, formulas
in running text that are not empty, comments that do not end in a space, and scripts
whose base is in braces or a single character that is no mark. -/
def isSimple : Mode → Node → Bool
  | _, string _ | _, whitespace | _, verb _ _ | _, verbatim _ | _, commentEnvironment _ => true
  | mode, parbreak => mode == .text
  | _, command name args => args.isNone && isPlainName name
  | _, group content => allSimple .text content
  | mode, inlineMath content => mode == .text && !content.isEmpty && allSimple .math content
  | _, displayMath content => allSimple .math content
  | _, script _ base => simpleBase base
  | _, comment content _ => content.toList.getLast?.all fun c => !LatexFormatter.isSpace c
  | _, environment name args body =>
    args.isNone && !isMathEnvironment name && !opensArguments (body.dropWhile isSpace) &&
      allSimple .text body
  | _, mathEnvironment _ body => allSimple .math body
  | _, list _ | _, arguments _ => false

def allSimple : Mode → List Node → Bool
  | _, [] => true
  | mode, node :: rest => isSimple mode node && node.isSettled mode rest && allSimple mode rest

def simpleBase : Option Node → Bool
  | none => false
  | some base =>
    (base.isString || base.isGroup) && base.singleChar?.all isMathChar && isSimple .math base

end

end Node

open Node

/-- A plain name is one of letters that stands for nothing else, or a symbol. -/
theorem named_of_isPlainName {name : String} (hn : IsControlName name)
    (hplain : isPlainName name = true) :
    IsCommandName name.toList ∨ ∃ c, name.toList = [c] ∧ IsSymbol c := by
  simp only [isPlainName, Bool.and_eq_true, bne_iff_ne] at hplain
  obtain ⟨hverb, hsymbol⟩ := hplain
  have hlist : ∀ {other : String}, name ≠ other → name.toList ≠ other.toList :=
    fun hne heq => hne (String.toList_inj.1 heq)
  rcases hn with ⟨hne, hletters, hbegin, hend⟩ | ⟨c, hc, hletter⟩
  · exact Or.inl ⟨hlist hne, hletters, hlist hbegin, hlist hend, hlist hverb⟩
  · simp only [hc, Bool.and_eq_true, bne_iff_ne, Bool.not_eq_true'] at hsymbol
    obtain ⟨⟨⟨hblank, hopen⟩, hclose⟩, hparenthesis⟩ := hsymbol
    exact Or.inr ⟨c, hc, hletter, hblank, hopen, hclose, hparenthesis⟩

/-! ## Words and commands end where the text makes them end -/

theorem isSpecial_of_takesBlanks {c : Char} (h : takesBlanks c = true) : isSpecial c = true := by
  simp only [takesBlanks, Bool.or_eq_true, beq_iff_eq] at h
  rcases h with (((rfl | rfl) | rfl) | rfl) | rfl <;> decide

theorem not_takesBlanks_head {c : Char} {cs : List Char} (h : takesBlanks c = false) :
    ¬ ∃ d ∈ (c :: cs).head?, takesBlanks d = true := by
  simp [h]

/-- What begins with a character that takes blanks along is a mark, a group or a script. -/
theorem Derives.takesSpaceBefore : ∀ {mode : Mode} {text rest : List Char} {node : Node},
    Derives mode text node rest → mode = .math →
    (∃ c ∈ (text ++ rest).head?, takesBlanks c = true) → node.takesSpaceBefore = true
  | _, _, _, _, .padded _ _ _ _ ht h, _, _ => h.takesSpaceBefore rfl ht
  | _, _, _, _, .string content _ hcut, hmode, ht => by
    subst hmode
    obtain ⟨d, hcontent, hd⟩ := hcut
    rw [hcontent] at ht
    refine isMark_string.2 ?_
    rcases hd with rfl | rfl | rfl | hd
    · exact Or.inl hcontent
    · exact Or.inr hcontent
    · exact absurd ht (not_takesBlanks_head rfl)
    · exact absurd ht (not_takesBlanks_head (takesBlanks_of_isMathChar hd))
  | _, _, _, _, .space hne hb _, _, ht => by
    obtain ⟨b, bs, rfl⟩ := List.exists_cons_of_ne_nil hne
    exact absurd ht (not_takesBlanks_head (takesBlanks_of_isBlank (hb b List.mem_cons_self)))
  | _, _, _, _, .comment before _ hb _ _ _ _, _, ht => by
    cases before with
    | nil => exact absurd ht (not_takesBlanks_head rfl)
    | cons b bs =>
      exact absurd ht (not_takesBlanks_head (takesBlanks_of_isBlank (hb b List.mem_cons_self)))
  | _, _, _, _, .group _, _, _ => rfl
  | _, _, _, _, .script _ _, _, _ => rfl
  | _, _, _, _, .math delimiter _, _, ht => by
    cases delimiter <;> exact absurd ht (not_takesBlanks_head rfl)
  | _, _, _, _, .command _ _ _ _, _, ht | _, _, _, _, .verb _ _ _ _ _, _, ht
  | _, _, _, _, .verbatim _ _, _, ht | _, _, _, _, .commentEnvironment _ _ _ _, _, ht
  | _, _, _, _, .mathEnvironment _ _ _ _, _, ht | _, _, _, _, .environment _ _ _ _ _ _, _, ht =>
    absurd ht (not_takesBlanks_head rfl)

section Ends

variable {mode : Mode} {first following : List Char} {node : Node} {nodes : List Node}

/-- What is no string does not continue a word. -/
theorem Derives.sealed (h : Derives mode first node following) (hs : node.isString = false) :
    Sealed (first ++ following) := by
  have hbehind : ∀ {before more : List Char} {c : Char}, (∀ c ∈ before, isBlank c = true) →
      isSpecial c = true → Sealed (before ++ c :: more) := fun hb hc =>
    sealed_blanks_append hb (sealed_cons hc)
  cases h with
  | @padded text _ _ before after hb ha ht h =>
    rw [List.append_assoc, List.append_assoc]
    refine sealed_blanks_append hb fun c hc => ?_
    obtain ⟨d, hd, htakes⟩ := ht
    obtain rfl : d = c := Option.some_inj.1 (hd.symm.trans hc)
    exact isSpecial_of_takesBlanks htakes
  | string => cases hs
  | space hne hb =>
    obtain ⟨b, bs, rfl⟩ := List.exists_cons_of_ne_nil hne
    exact sealed_cons (isSpecial_of_isBlank (hb b (by simp)))
  | comment before after hb =>
    rw [List.append_assoc, List.append_assoc]
    exact hbehind hb (by decide)
  | math delimiter => cases delimiter <;> exact sealed_cons (by decide)
  | script mark => cases mark <;> exact sealed_cons (by decide)
  | _ => exact sealed_cons (by decide)

/-- What comes next begins with the strings at the head of the list: all of them in running
text, in math the first if it is a letter. -/
def Meets (mode : Mode) (nodes : List Node) (text : List Char) : Prop :=
  (mode = .text → Continues nodes text) ∧
    ∀ c ∈ (leadingText nodes).head?, isLetter c = true → text.head? = some c

theorem meets_of_sealed {text : List Char} (h : ∀ node ∈ nodes.head?, node.isString = false)
    (ht : Sealed text) : Meets mode nodes text :=
  ⟨fun _ => continues_of_sealed h ht, by simp [leadingText_of_head h]⟩

/-- A string in running text is a word that ends where it is cut, or a mark. -/
theorem Derives.of_string {content : String} (h : Derives .text first (.string content) following) :
    first = content.toList ∧ content.toList ≠ [] ∧ Cut .text content.toList following := by
  generalize hnode : Node.string content = node at h
  cases h with
  | string other hne hcut =>
    cases hnode
    exact ⟨rfl, hne, hcut⟩
  | space _ _ hn =>
    rw [← hnode] at hn
    cases hn
  | math delimiter => cases delimiter <;> cases hnode
  | _ => cases hnode

theorem Derives.meets (hm : mode ≠ .arguments) (h : Derives mode first node following)
    (hnext : Meets mode nodes following) : Meets mode (node :: nodes) (first ++ following) := by
  cases hs : node.isString with
  | false => exact meets_of_sealed (by simpa using hs) (h.sealed hs)
  | true =>
    obtain ⟨content, rfl⟩ := exists_string hs
    cases mode with
    | arguments => exact absurd rfl hm
    | text =>
      obtain ⟨rfl, hne, -⟩ := h.of_string
      refine ⟨fun _ => (hnext.1 rfl).string, fun c hc _ => ?_⟩
      obtain ⟨d, ds, hd⟩ := List.exists_cons_of_ne_nil hne
      simpa [leadingText, hd] using hc
    | math =>
      refine ⟨by simp, fun c hc hletter => ?_⟩
      generalize hnode : Node.string content = node at h
      cases h with
      | padded before after hb ha ht h =>
        -- a mark is no letter
        have hmark := h.takesSpaceBefore rfl ht
        rw [← hnode] at hmark
        rcases isMark_string.1 hmark with hcontent | hcontent <;>
          obtain rfl : _ = c := by simpa [leadingText, hcontent] using hc
        · exact absurd hletter (by decide)
        · exact absurd hletter (by decide)
      | string other hne =>
        cases hnode
        obtain ⟨d, ds, hd⟩ := List.exists_cons_of_ne_nil hne
        simpa [leadingText, hd] using hc
      | space _ _ hn =>
        rw [← hnode] at hn
        cases hn
      | math delimiter => cases delimiter <;> cases hnode
      | _ => cases hnode

/-- A simple node ends where its text ends. -/
theorem Derives.ends (hm : mode ≠ .arguments) (h : Derives mode first node following)
    (hs : node.isSimple mode = true) (hsettled : node.isSettled mode nodes = true)
    (hnext : Meets mode nodes following) : Ends mode nodes node := by
  have hopens : node.isCommand = true → opensArguments nodes = false := by
    intro hcommand
    simpa [isSettled, hcommand] using (Bool.and_eq_true_iff.1 hsettled).1
  cases h with
  | padded before after hb ha ht h =>
    have htakes := h.takesSpaceBefore rfl ht
    cases node with
    | string content => simp [Ends]
    | command => cases htakes
    | _ => trivial
  | string content hne hcut =>
    rintro rfl
    obtain ⟨after, rfl, hsealed⟩ := hnext.1 rfl
    refine ⟨hne, ?_⟩
    rcases hcut with hmark | hmark | ⟨-, hlength⟩
    · exact Or.inl (isMark_string.2 (Or.inl hmark))
    · exact Or.inl (isMark_string.2 (Or.inr hmark))
    · rw [← List.append_assoc, wordLength_append (by simp [hne]) hsealed] at hlength
      exact Or.inr hlength
  | command name hn hend hargs =>
    cases hargs with
    | some => simp [isSimple] at hs
    | none =>
      refine ⟨hopens rfl, fun hletters c hc => ?_⟩
      cases hletter : isLetter c with
      | false => rfl
      | true => exact (hend hletters c (hnext.2 c hc hletter)).symm.trans hletter |>.symm
  | space _ _ hn => rcases isSpace_iff.1 hn with rfl | rfl <;> trivial
  | math delimiter => cases delimiter <;> trivial
  | _ => trivial

end Ends

/-- Simple nodes that are read before something that is no part of a word are legible. -/
theorem DerivesAll.legible : ∀ {mode : Mode} {text rest : List Char} {nodes : List Node},
    DerivesAll mode text nodes rest → mode ≠ .arguments → '\x00' ∉ text →
    allSimple mode nodes = true → Sealed rest → Legible mode nodes ∧ Meets mode nodes (text ++ rest)
  | _, _, _, _, .nil, _, _, _, hsealed => ⟨trivial, meets_of_sealed (by simp) hsealed⟩
  | _, _, _, _, .null _, _, hnull, _, _ => absurd (by simp) hnull
  | _, _, _, _, .cons h hrest, hm, hnull, hs, hsealed => by
    simp only [allSimple, Bool.and_eq_true] at hs
    obtain ⟨⟨hnode, hsettled⟩, hnodes⟩ := hs
    simp only [List.mem_append, not_or] at hnull
    obtain ⟨hlegible, hmeets⟩ := hrest.legible hm hnull.2 hnodes hsealed
    rw [List.append_assoc]
    have hends := h.ends hm hnode hsettled hmeets
    refine ⟨⟨hends, fun hmath next hnext => ?_, hlegible⟩, h.meets hm hmeets⟩
    simp only [isSettled, Bool.and_eq_true] at hsettled
    simpa [hmath, Option.mem_def.1 hnext] using hsettled.2

mutual

/-- A simple node that is read is orderly once it is normalized. -/
theorem Derives.orderly : ∀ {mode : Mode} {text rest : List Char} {node : Node},
    Derives mode text node rest → mode ≠ .arguments → '\x00' ∉ text → node.isSimple mode = true →
    Orderly mode node.normalize
  | _, _, _, _, .padded _ _ _ _ _ h, hm, hnull, hs => by
    simp only [List.mem_append, not_or] at hnull
    exact h.orderly hm hnull.1.2 hs
  | mode, _, _, _, .string content hne hcut, hm, hnull, _ => by
    cases mode with
    | arguments => exact absurd rfl hm
    | text =>
      rcases hcut with hmark | hmark | ⟨hwords, -⟩
      · exact Or.inl hmark
      · exact Or.inr (Or.inl hmark)
      · exact Or.inr (Or.inr ⟨hne, hwords⟩)
    | math =>
      obtain ⟨c, hcontent, hc⟩ := hcut
      refine ⟨c, hcontent, ?_⟩
      rcases hc with hc | hc | rfl | hc
      · exact Or.inl hc
      · exact Or.inr (Or.inl hc)
      · exact absurd (by simp [hcontent]) hnull
      · exact Or.inr (Or.inr hc)
  | mode, _, _, _, .space _ _ hn, _, _, hs => by
    rcases isSpace_iff.1 hn with rfl | rfl
    · trivial
    · show mode = .text
      simpa [isSimple] using hs
  | _, _, _, _, .comment _ _ _ _ content _ hc, _, _, hs => by
    refine ⟨hc, fun c hlast => ?_⟩
    simpa [isSimple, Option.mem_def.1 hlast] using hs
  | _, _, _, _, .group h, _, hnull, hs => by
    simp only [List.cons_append, List.mem_cons, List.mem_append, not_or] at hnull
    have hlegible := (h.legible (by simp) hnull.2.1 hs (sealed_cons (by decide))).1
    rw [normalize_group]
    exact orderly_collapse hlegible (h.orderly (by simp) hnull.2.1 hs)
  | mode, _, rest, _, @Derives.math _ delimiter _ _ body h, _, hnull, hs => by
    simp only [List.mem_append, not_or] at hnull
    have hsealed : Sealed (delimiter.closing ++ rest) := by
      cases delimiter <;> exact sealed_cons (by decide)
    have hbody : allSimple .math body = true := by
      cases delimiter with
      | dollar | parentheses => exact (Bool.and_eq_true_iff.1 hs).2
      | dollars | brackets => exact hs
    have hlegible := (h.legible (by simp) hnull.1.2 hbody hsealed).1
    have horderly := h.orderly (by simp) hnull.1.2 hbody
    have hinline : (Node.inlineMath body).isSimple mode = true →
        Orderly mode (Node.inlineMath body).normalize := by
      intro hs
      simp only [isSimple, Bool.and_eq_true, beq_iff_eq, Bool.not_eq_true',
        List.isEmpty_eq_false_iff] at hs
      rw [normalize_inlineMath]
      refine ⟨hs.1.1, fun hnil => ?_, orderly_collapse hlegible horderly⟩
      exact hs.1.2 (List.map_eq_nil_iff.1 (eq_nil_of_collapseFrom rfl hnil).2)
    have hdisplay : Orderly mode (Node.displayMath body).normalize := by
      rw [normalize_displayMath]
      exact orderly_collapse hlegible horderly
    cases delimiter with
    | dollar | parentheses => exact hinline hs
    | dollars | brackets => exact hdisplay
  | _, _, _, _, .script _ h, _, hnull, hs => by
    simp only [List.mem_cons, not_or] at hnull
    exact h.orderly hnull.2 hs
  | _, _, _, _, .command name hn _ hargs, _, _, hs => by
    simp only [isSimple, Bool.and_eq_true, Option.isNone_iff_eq_none] at hs
    obtain ⟨rfl, hplain⟩ := hs
    exact ⟨rfl, named_of_isPlainName hn hplain⟩
  | _, _, _, _, .verb _ _ hl hw hc, _, _, _ => ⟨hl, hw, hc⟩
  | _, _, _, _, .verbatim _ hc, _, _, _ => hc
  | _, _, _, _, .commentEnvironment _ _ _ hc, _, _, _ => hc
  | _, _, _, _, .mathEnvironment name hn hm h, _, hnull, hs => by
    simp only [List.mem_append, not_or] at hnull
    have hlegible := (h.legible (by simp) hnull.1.2 hs (sealed_cons (by decide))).1
    rw [normalize_mathEnvironment]
    exact ⟨⟨hn, by simpa using hm⟩, orderly_collapse hlegible (h.orderly (by simp) hnull.1.2 hs)⟩
  | _, _, _, _, .environment name hn hv hc _ h, _, hnull, hs => by
    simp only [isSimple, Bool.and_eq_true, Option.isNone_iff_eq_none, Bool.not_eq_true'] at hs
    obtain ⟨⟨⟨rfl, hmath⟩, hopens⟩, hbody⟩ := hs
    simp only [List.mem_append, not_or] at hnull
    have hname : IsEnvironmentName name.toList :=
      ⟨hn, by simpa using hmath, fun heq => hv (String.toList_inj.1 heq),
        fun heq => hc (String.toList_inj.1 heq)⟩
    have hlegible := (h.legible (by simp) hnull.1.2 hbody (sealed_cons (by decide))).1
    rw [normalize_environment]
    refine ⟨rfl, hname, ?_, orderly_collapse hlegible (h.orderly (by simp) hnull.1.2 hbody)⟩
    have hspace : Node.isSpace ∘ normalize = Node.isSpace := funext isSpace_normalize
    rw [collapse, opensArguments_body, List.dropWhile_map, hspace, opensArguments_map_normalize]
    exact hopens

theorem DerivesAll.orderly : ∀ {mode : Mode} {text rest : List Char} {nodes : List Node},
    DerivesAll mode text nodes rest → mode ≠ .arguments → '\x00' ∉ text →
    allSimple mode nodes = true → ∀ node ∈ nodes, Orderly mode node.normalize
  | _, _, _, _, .nil, _, _, _ => by simp
  | _, _, _, _, .null _, _, hnull, _ => absurd (by simp) hnull
  | _, _, _, _, .cons h hrest, hm, hnull, hs => by
    simp only [allSimple, Bool.and_eq_true] at hs
    simp only [List.mem_append, not_or] at hnull
    have hfirst := h.orderly hm hnull.1 hs.1.1
    have hmore := hrest.orderly hm hnull.2 hs.2
    intro node hnode
    rcases List.mem_cons.1 hnode with rfl | hnode
    · exact hfirst
    · exact hmore node hnode

theorem DerivesBase.orderly : ∀ {text rest : List Char} {base : Option Node} {mark : Mark}
    {mode : Mode}, DerivesBase text base rest → '\x00' ∉ text → simpleBase base = true →
    Orderly mode (Node.script mark base).normalize
  | _, _, _, _, _, .none, _, hs => by cases hs
  | _, _, some base, _, _, .some _ _ _ h, hnull, hs => by
    simp only [simpleBase, Bool.and_eq_true] at hs
    obtain ⟨⟨hshape, hchar⟩, hbase⟩ := hs
    simp only [List.mem_append, not_or] at hnull
    refine ⟨?_, fun c hc => ?_, h.orderly (by simp) hnull.2 hbase⟩
    · cases base <;> first | exact Or.inl rfl | exact Or.inr rfl | cases hshape
    · rw [Option.mem_def] at hc
      rw [singleChar?_of_normalize hc] at hchar
      exact hchar

end

/-! ## Formatting twice -/

theorem exists_parse_of_parseNormalized {text : String} {node : Node}
    (h : parseNormalized text = .ok node) : ∃ tree, parse text = .ok tree := by
  cases hparse : parse text with
  | ok tree => exact ⟨tree, rfl⟩
  | error error =>
    rw [parseNormalized, hparse] at h
    cases h

/-- A text of simple nodes is read as an orderly list. -/
theorem exists_orderly {source : String} {nodes : List Node} (hnull : '\x00' ∉ source.toList)
    (hparse : parse source = .ok (.list nodes)) (hs : allSimple .text nodes = true) :
    ∃ items, parseNormalized source = .ok (.list items) ∧ Legible .text items ∧
      OrderlyAll .text items ∧ Normal (.list items) := by
  have hderives : DerivesAll .text source.toList nodes [] := by
    rcases parse_derives source with ⟨error, -, herror⟩ | ⟨_, others, -, -, hothers, hderives⟩
    · rw [herror] at hparse
      cases hparse
    · rw [hothers] at hparse
      cases hparse
      exact hderives
  have hread : parseNormalized source = .ok (Node.list nodes).normalize := by
    rw [parseNormalized, hparse]
    rfl
  have hnormal := (normalize_reaches_normal_form (.list nodes)).1
  have hlegible := (hderives.legible (by simp) hnull hs sealed_nil).1
  obtain ⟨hlegible, horderly⟩ : Legible .text (collapse false (nodes.map normalize)) ∧
      OrderlyAll .text (collapse false (nodes.map normalize)) :=
    orderly_collapse hlegible (hderives.orderly (by simp) hnull hs)
  rw [normalize_list] at hread hnormal
  exact ⟨_, hread, hlegible, horderly, hnormal⟩

/-- What comes to the same as a list is printed as the list is. -/
theorem print_of_regained {items found : List Node} (horderly : OrderlyAll .text items)
    (hnormal : Normal (.list items)) (h : Regained .braces false .start items found)
    (hspaced : Spaced false found) :
    (∀ options, printTokens options (.list items) = printTokens options (.list found)) ∧
      ∀ options, printDoc options (.list items) = printDoc options (.list found) := by
  refine print_of_alike (suitsAll_of_orderly items horderly hnormal.2) (spaced_of_spread hnormal.1)
    h.suits hspaced ?_
  simpa [Enclosure.close, Enclosure.braces] using h.alike

/-- What either printer makes of a text of simple nodes can be read, and
formatting it again with the same options changes nothing. -/
theorem format_stable {source : String} {nodes : List Node} (hnull : '\x00' ∉ source.toList)
    (hparse : parse source = .ok (.list nodes)) (hs : allSimple .text nodes = true) :
    (∀ options : TextOptions, options.validate = .ok () → ∃ out,
      formatText options (.text source) = .ok out ∧ (∃ tree, parse out = .ok tree) ∧
        formatText options (.text out) = .ok out) ∧
    (∀ options : LayoutOptions, options.validate = .ok () → ∃ out,
      formatLayout options (.text source) = .ok out ∧ (∃ tree, parse out = .ok tree) ∧
        formatLayout options (.text out) = .ok out) := by
  obtain ⟨items, hread, hlegible, horderly, hnormal⟩ := exists_orderly hnull hparse hs
  refine ⟨fun options hvalid => ?_, fun options hvalid => ?_⟩
  · obtain ⟨found, hback, hregained, hspaced⟩ :=
      exists_regained_printTokens options hlegible horderly hnormal
    have hsame := (print_of_regained horderly hnormal hregained hspaced).1 options
    refine ⟨_, formatText_of_read hvalid hread, exists_parse_of_parseNormalized hback, ?_⟩
    rw [formatText_of_read hvalid hback, hsame]
  · obtain ⟨found, hback, hregained, hspaced⟩ :=
      exists_regained_printDoc options hlegible horderly hnormal
    have hsame := (print_of_regained horderly hnormal hregained hspaced).2 options
    refine ⟨_, formatLayout_of_read hvalid hread, exists_parse_of_parseNormalized hback, ?_⟩
    rw [formatLayout_of_read hvalid hback, hsame]

/-- Excess space, a group with space at its end, scripts with and without need of their
braces, an environment with a comment and two paragraphs, and a displayed formula. -/
def unevenText : String :=
  "{3cm }  $x^{a} y_{ij}$\n\\begin{x} \\b % b\n\n\n c\\end{x}\\[z\\]"

def unevenNodes : List Node :=
  [.group [.string "3cm", .whitespace], .whitespace,
    .inlineMath [.string "x", .script .sup (some (.group [.string "a"])), .whitespace, .string "y",
      .script .sub (some (.group [.string "ij"]))],
    .whitespace,
    .environment "x" none [.whitespace, .command "b" none, .whitespace, .comment " b" true,
      .parbreak, .string "c"],
    .displayMath [.string "z"]]

theorem format_stable_uneven :
    '\x00' ∉ unevenText.toList ∧ parse unevenText = .ok (.list unevenNodes) ∧
      allSimple .text unevenNodes = true ∧
      (∃ out, formatText ⟨6, 4⟩ (.text unevenText) = .ok out ∧ (∃ tree, parse out = .ok tree) ∧
        formatText ⟨6, 4⟩ (.text out) = .ok out) ∧
      ∃ out, formatLayout ⟨6, 4, false, ""⟩ (.text unevenText) = .ok out ∧
        (∃ tree, parse out = .ok tree) ∧ formatLayout ⟨6, 4, false, ""⟩ (.text out) = .ok out := by
  have hnull : '\x00' ∉ unevenText.toList := by decide
  have hparse : parse unevenText = .ok (.list unevenNodes) := by
    unfold parse readDocument
    rw [readDocumentBy_cached]
    rfl
  have hs : allSimple .text unevenNodes = true := by decide
  obtain ⟨htext, hlayout⟩ := format_stable hnull hparse hs
  exact ⟨hnull, hparse, hs, htext ⟨6, 4⟩ rfl, hlayout ⟨6, 4, false, ""⟩ rfl⟩

/-- A mark in braces is printed without them, and read again without the space
behind it, so formatting a second time joins it with the next word. -/
theorem format_unstable_script :
    formatText {} (.text "x^{&} b") = .ok "x^& b" ∧ formatText {} (.text "x^& b") = .ok "x^&b" ∧
      formatLayout {} (.text "x^{&} b") = .ok "x^& b" ∧
      formatLayout {} (.text "x^& b") = .ok "x^&b" := by
  have hbraces : parseNormalized "x^{&} b" = .ok (.list [.string "x",
      .script .sup (some (.group [.string "&"])), .whitespace, .string "b"]) := by
    unfold parseNormalized parse readDocument
    rw [readDocumentBy_cached]
    rfl
  have hbare : parseNormalized "x^& b" = .ok (.list [.string "x",
      .script .sup (some (.string "&")), .string "b"]) := by
    unfold parseNormalized parse readDocument
    rw [readDocumentBy_cached]
    rfl
  rw [formatText_of_read rfl hbraces, formatText_of_read rfl hbare,
    formatLayout_of_read rfl hbraces, formatLayout_of_read rfl hbare]
  decide +kernel

end LatexFormatter
