import LatexFormatter.Proofs.Printing.Blanks
import Mathlib.Data.List.DropRight

/-
  Words that stand next to each other. The token printer wraps where the output ends
  in a space, whatever token wrote that. Of the texts of a tree that was read, only
  the control space ends in one, apart from comments, after which a line ends
  anyway. So every other text is followed at once by the text that comes next, and
  a wrap takes the place of a space token (`wraps_replace_spaces`); at a control
  space, the printer splits what belongs together (`wrap_splits_control_space`).
-/

namespace LatexFormatter

open Node

namespace Token

/-! ## What stands before and after a token -/

/-- The tokens that write something or may end the line. -/
def loud (tokens : List Token) : List Token := tokens.filter fun token => !token.isSilent

@[simp] theorem loud_append (tokens more : List Token) :
    loud (tokens ++ more) = loud tokens ++ loud more :=
  List.filter_append ..

theorem loud_eq_nil {tokens : List Token} (h : ∀ token ∈ tokens, token.isSilent = true) :
    loud tokens = [] :=
  List.filter_eq_nil_iff.2 fun token htoken => by simp [h token htoken]

theorem loud_cons {token : Token} (h : token.isSilent = false) (rest : List Token) :
    loud (token :: rest) = token :: loud rest :=
  List.filter_cons_of_pos (by simp [h])

/-- A control space or a control tab. -/
def isControlBlank (token : Token) : Bool := token == text "\\ " || token == text "\\\t"

/-- Whether a text ends in a blank that is no part of a command. -/
def trails (token : Token) : Bool := token.content.getLast?.any isSpace && !token.isControlBlank

/-- Whether a text has characters, the first of which is no blank. -/
def opensVisibly : Token → Bool
  | text content => content.toList.head?.any fun c => !isSpace c
  | _ => true

/-- What can come next, silent directives aside. -/
structure Meets (before after : Token) : Prop where
  trails : before.trails = true → after = newline
  space : before = space → after ≠ space

/-- Blanks at the end of a text come before a line break, no two spaces stand in a
row, and every text starts with something visible. -/
structure WellSpaced (tokens : List Token) : Prop where
  chain : (loud tokens).IsChain Meets
  last : ∀ token ∈ (loud tokens).getLast?, token.trails = false
  opens : ∀ token ∈ tokens, token.opensVisibly = true

/-- A token without a blank at its edges: it can stand before and after any other. -/
structure NoBlankEdge (token : Token) : Prop where
  opens : token.opensVisibly = true
  trails : token.trails = false
  space : token ≠ space

theorem NoBlankEdge.meets {token : Token} (h : token.NoBlankEdge) (after : Token) :
    Meets token after := by
  refine ⟨fun htrails => ?_, fun hspace => absurd hspace h.space⟩
  rw [h.trails] at htrails
  cases htrails

theorem noBlankEdge_chars {cs : List Char} {c : Char} (hfirst : cs.head? = some c)
    (hc : isSpace c = false) (hlast : cs.getLast?.any isSpace = false) :
    (chars cs).NoBlankEdge := by
  refine ⟨?_, ?_, by simp [chars]⟩
  · simp [chars, opensVisibly, hfirst, hc]
  · simp [trails, hlast]

theorem noBlankEdge_singleton (c : Char) (h : isSpace c = false) : (chars [c]).NoBlankEdge :=
  noBlankEdge_chars rfl h h

theorem wellSpaced_of_noBlankEdge {tokens : List Token} (h : ∀ token ∈ tokens, token.NoBlankEdge) :
    WellSpaced tokens := by
  have hloud : ∀ token ∈ loud tokens, token.NoBlankEdge := fun token htoken =>
    h token (List.mem_of_mem_filter htoken)
  refine ⟨?_, fun token htoken => (hloud token (List.mem_of_getLast? htoken)).trails,
    fun token htoken => (h token htoken).opens⟩
  generalize loud tokens = rest at hloud
  induction rest with
  | nil => exact .nil
  | cons token rest ih =>
    obtain ⟨htoken, hrest⟩ := List.forall_mem_cons.1 hloud
    exact List.isChain_cons.2 ⟨fun after _ => htoken.meets after, ih hrest⟩

theorem WellSpaced.append {tokens more : List Token} (h : WellSpaced tokens) (h' : WellSpaced more)
    (hseam : (loud tokens).getLast? ≠ some space ∨ (loud more).head? ≠ some space) :
    WellSpaced (tokens ++ more) := by
  refine ⟨?_, ?_, List.forall_mem_append.2 ⟨h.opens, h'.opens⟩⟩
  · rw [loud_append]
    refine List.isChain_append.2 ⟨h.chain, h'.chain, fun before hbefore after hafter => ⟨?_, ?_⟩⟩
    · intro htrails
      rw [h.last before hbefore] at htrails
      cases htrails
    · rintro rfl rfl
      rcases hseam with hseam | hseam
      · exact hseam hbefore
      · exact hseam hafter
  · intro token htoken
    rw [loud_append, List.getLast?_append] at htoken
    rcases Option.or_eq_some_iff.1 htoken with hmore | ⟨-, hfirst⟩
    · exact h'.last token hmore
    · exact h.last token hfirst

/-- Well-spaced tokens between tokens without blank edges. -/
theorem WellSpaced.between {before tokens after : List Token} (h : WellSpaced tokens)
    (hbefore : ∀ token ∈ before, token.NoBlankEdge) (hafter : ∀ token ∈ after, token.NoBlankEdge) :
    WellSpaced (before ++ tokens ++ after) := by
  have hloud : ∀ {tokens : List Token}, (∀ token ∈ tokens, token.NoBlankEdge) →
      space ∉ loud tokens :=
    fun hedge hspace => (hedge space (List.mem_of_mem_filter hspace)).space rfl
  have hstart := (wellSpaced_of_noBlankEdge hbefore).append h
    (Or.inl fun hlast => hloud hbefore (List.mem_of_getLast? hlast))
  exact hstart.append (wellSpaced_of_noBlankEdge hafter)
    (Or.inr fun hfirst => hloud hafter (List.mem_of_head? hfirst))

end Token

/-! ## The tokens of a tree -/

/-- What the texts of a node rely on: names are names, strings have characters but no
blanks, and the delimiter of literal text is no blank. -/
def Node.Solid : Node → Prop
  | list _ => False
  | string content => content ≠ "" ∧ ∀ c ∈ content.toList, isBlank c = false
  | command name _ => IsControlName name
  | verb delimiter _ => LatexFormatter.isSpace delimiter = false
  | _ => True

namespace Token

theorem noBlankEdge_string {content : String} (hne : content ≠ "")
    (h : ∀ c ∈ content.toList, isBlank c = false) : (text content).NoBlankEdge := by
  have hsolid : ∀ c ∈ content.toList, isSpace c = false := fun c hc =>
    isSpace_of_isBlank_eq_false (h c hc)
  obtain ⟨c, rest, hcontent⟩ := List.exists_cons_of_ne_nil (mt String.toList_eq_nil_iff.1 hne)
  have hedge := @noBlankEdge_chars content.toList c (by simp [hcontent])
    (hsolid c (by simp [hcontent])) (any_getLast?_of_solid hsolid)
  simpa [chars] using hedge

theorem noBlankEdge_command {name : String} (h : IsControlName name) :
    (chars ('\\' :: name.toList)).NoBlankEdge := by
  refine ⟨by simp [chars, opensVisibly, isSpace], ?_, by simp [chars]⟩
  have hlast := any_getLast?_command h
  cases hblank : name == " " || name == "\t" with
  | false => simp [trails, hlast, hblank]
  | true =>
    have hcontrol : (chars ('\\' :: name.toList)).isControlBlank = true := by
      simp only [Bool.or_eq_true, beq_iff_eq] at hblank
      rcases hblank with rfl | rfl <;> rfl
    simp [trails, hcontrol]

theorem noBlankEdge_mark (mark : Mark) {cs : List Char} (h : ∀ c ∈ cs, isSpace c = false) :
    (chars (mark.char :: cs)).NoBlankEdge := by
  have hmark : isSpace mark.char = false := by cases mark <;> rfl
  exact noBlankEdge_chars rfl hmark (any_getLast?_of_solid (List.forall_mem_cons.2 ⟨hmark, h⟩))

/-- A text that starts with a backslash and does not end in a blank. -/
theorem noBlankEdge_concat (inner : List Char) {last : Char} (h : isSpace last = false) :
    (chars ('\\' :: inner ++ [last])).NoBlankEdge :=
  noBlankEdge_chars rfl rfl (by rw [List.getLast?_concat]; exact h)

theorem noBlankEdge_openingTag (name : String) : (chars (openingTag name)).NoBlankEdge :=
  noBlankEdge_concat (['b', 'e', 'g', 'i', 'n', '{'] ++ name.toList) rfl

theorem noBlankEdge_closingTag (name : String) : (chars (closingTag name)).NoBlankEdge :=
  noBlankEdge_concat (['e', 'n', 'd', '{'] ++ name.toList) rfl

theorem noBlankEdge_verb {delimiter : Char} (h : isSpace delimiter = false) (content : String) :
    (chars (Node.verb delimiter content).display).NoBlankEdge := by
  rw [Node.display]
  exact noBlankEdge_concat (['v', 'e', 'r', 'b'] ++ delimiter :: content.toList) h

/-- Literal text between the tags of its environment. -/
theorem noBlankEdge_literal (name content : String) :
    (chars (openingTag name ++ content.toList ++ closingTag name)).NoBlankEdge := by
  rw [closingTag, ← List.append_assoc]
  exact noBlankEdge_concat (['b', 'e', 'g', 'i', 'n', '{'] ++ name.toList ++ ['}'] ++ content.toList
    ++ (['\\', 'e', 'n', 'd', '{'] ++ name.toList)) rfl

theorem noBlankEdge_directives (tokens : List Token)
    (h : tokens.all (fun token => !token.isText && token != space) = true) :
    ∀ token ∈ tokens, token.NoBlankEdge := by
  intro token htoken
  have hdirective := List.all_eq_true.1 h token htoken
  cases token with
  | text _ | space => cases hdirective
  | _ => exact ⟨rfl, rfl, by simp⟩

/-- A piece of text with directives before and after it. -/
theorem noBlankEdge_around (before after : List Token) {cs : List Char} (h : (chars cs).NoBlankEdge)
    (hbefore : before.all (fun token => !token.isText && token != space) = true)
    (hafter : after.all (fun token => !token.isText && token != space) = true) :
    ∀ token ∈ before ++ chars cs :: after, token.NoBlankEdge :=
  List.forall_mem_append.2 ⟨noBlankEdge_directives before hbefore,
    List.forall_mem_cons.2 ⟨h, noBlankEdge_directives after hafter⟩⟩

theorem noBlankEdge_beforeCommand (name : String) :
    ∀ token ∈ beforeCommand name, token.NoBlankEdge := by
  unfold beforeCommand
  split
  · exact noBlankEdge_directives _ rfl
  · split
    · exact noBlankEdge_directives _ rfl
    · simp

/-- Neither the first nor the last token is a space, and there are such. -/
structure Rimmed (tokens : List Token) : Prop where
  first : ∃ token, (loud tokens).head? = some token ∧ token ≠ space
  last : ∃ token, (loud tokens).getLast? = some token ∧ token ≠ space

theorem rimmed_ofScript (mark : Mark) (base : Option Node) : Rimmed (ofScript mark base) := by
  cases base with
  | none => constructor <;> simp [ofScript, loud, chars, isSilent, List.getLast?_cons]
  | some base =>
    rw [ofScript]
    cases base.singleChar? with
    | some c => constructor <;> simp [loud, chars, isSilent, List.getLast?_cons]
    | none =>
      cases hg : base.isGroup with
      | false => constructor <;> simp [loud, chars, isSilent, List.getLast?_cons]
      | true =>
        obtain ⟨items, rfl⟩ := exists_group hg
        constructor <;> simp [ofNode, loud, chars, isSilent, List.getLast?_cons]

/-- A node that is no space does not start or end with one. -/
theorem rimmed_ofNode {node : Node} (hspace : node.isSpace = false) (h : node.Solid) :
    Rimmed (ofNode node) := by
  cases node with
  | list _ => exact h.elim
  | whitespace | parbreak => cases hspace
  | script mark base => simpa [ofNode] using rimmed_ofScript mark base
  | command name args =>
    constructor
    · rw [ofNode, beforeCommand]
      split
      · simp [loud, isSilent]
      · split <;> simp [loud, chars, isSilent]
    · cases args <;> simp [ofNode, ofArgs, loud, chars, isSilent, List.getLast?_cons]
  | comment content sameline =>
    cases sameline <;> constructor <;> simp [ofNode, loud, chars, isSilent, List.getLast?_cons]
  | _ => constructor <;> simp [ofNode, loud, literal, chars, isSilent, List.getLast?_cons]

theorem wellSpaced_space : WellSpaced [space] :=
  ⟨.singleton space, by simp [loud, isSilent, trails, content], by simp [opensVisibly]⟩

theorem WellSpaced.bracketed {tokens : List Token} (h : WellSpaced tokens) :
    WellSpaced (text "[" :: tokens ++ [text "]"]) := by
  have hopening := noBlankEdge_around [] [] (noBlankEdge_singleton '[' rfl) rfl rfl
  have hclosing := noBlankEdge_around [] [] (noBlankEdge_singleton ']' rfl) rfl rfl
  simpa [chars] using h.between hopening hclosing

theorem wellSpaced_comment (content : String) (sameline : Bool) :
    WellSpaced (ofNode (.comment content sameline)) := by
  have hline : WellSpaced [chars ('%' :: content.toList), newline] := by
    refine ⟨?_, by simp [loud, chars, isSilent, trails, Token.content], ?_⟩
    · rw [loud_cons rfl, loud_cons rfl]
      exact List.isChain_pair.2 ⟨fun _ => rfl, fun h => by cases h⟩
    · simp [chars, opensVisibly, isSpace]
  have hbefore : ∀ token ∈ (if sameline then [] else [ensureNewline]), token.NoBlankEdge := by
    cases sameline <;> exact noBlankEdge_directives _ rfl
  simpa [ofNode] using hline.between hbefore (List.forall_mem_nil _)

mutual

/-- The tokens of a tree without excess space are well spaced. -/
theorem wellSpaced_ofNode : ∀ node : Node, node.Everywhere Solid → node.Normal →
    WellSpaced (ofNode node)
  | .list _ => fun h _ => h.1.elim
  | .string _ => fun h _ => by
    rw [ofNode]
    exact wellSpaced_of_noBlankEdge (List.forall_mem_singleton.2 (noBlankEdge_string h.1 h.2))
  | .whitespace => fun _ _ => wellSpaced_space
  | .parbreak => fun _ _ => wellSpaced_of_noBlankEdge (noBlankEdge_directives [paragraphBreak] rfl)
  | .command name args => fun h hn => by
    have hname : ∀ token ∈ beforeCommand name ++ [chars ('\\' :: name.toList)], token.NoBlankEdge :=
      List.forall_mem_append.2 ⟨noBlankEdge_beforeCommand name,
        List.forall_mem_singleton.2 (noBlankEdge_command h.1)⟩
    simpa [ofNode] using (wellSpaced_ofArgs args h.2 hn).between hname (List.forall_mem_nil _)
  | .environment name args body => fun h hn => by
    have hopening := (wellSpaced_ofArgs args h.2.1 hn.1).between
      (noBlankEdge_around [ensureNewline] [indent] (noBlankEdge_openingTag name) rfl rfl)
      (noBlankEdge_directives [newline] rfl)
    have hbody := (wellSpaced_ofNodes body h.2.2 hn.2.2 hn.2.1).between (List.forall_mem_nil _)
      (noBlankEdge_around [endIndent, newline] [] (noBlankEdge_closingTag name) rfl rfl)
    have hblock := hopening.append hbody (Or.inl (by
      rw [loud_append, loud_cons rfl, List.getLast?_append]
      simp [loud]))
    simpa [ofNode] using hblock
  | .mathEnvironment name body => fun h hn => by
    have hblock := (wellSpaced_ofNodes body h.2 hn.2 hn.1).between
      (noBlankEdge_around [ensureNewline] [indent, newline] (noBlankEdge_openingTag name) rfl rfl)
      (noBlankEdge_around [endIndent, newline] [] (noBlankEdge_closingTag name) rfl rfl)
    simpa [ofNode] using hblock
  | .inlineMath items => fun h hn => by
    have hdollar := noBlankEdge_around [] [] (noBlankEdge_singleton '$' rfl) rfl rfl
    simpa [ofNode, chars] using (wellSpaced_ofNodes items h.2 hn.2 hn.1).between hdollar hdollar
  | .displayMath items => fun h hn => by
    have hblock := (wellSpaced_ofNodes items h.2 hn.2 hn.1).between
      (noBlankEdge_around [ensureNewline] [indent, newline]
        (noBlankEdge_chars rfl rfl rfl : (chars ['\\', '[']).NoBlankEdge) rfl rfl)
      (noBlankEdge_around [endIndent, newline] []
        (noBlankEdge_chars rfl rfl rfl : (chars ['\\', ']']).NoBlankEdge) rfl rfl)
    simpa [ofNode, chars] using hblock
  | .group items => fun h hn => by
    have hgroup := (wellSpaced_ofNodes items h.2 hn.2 hn.1).between
      (noBlankEdge_around [noWrap] [] (noBlankEdge_singleton '{' rfl) rfl rfl)
      (noBlankEdge_around [] [endNoWrap] (noBlankEdge_singleton '}' rfl) rfl rfl)
    simpa [ofNode, chars] using hgroup
  | .script mark base => fun h hn => by
    rw [ofNode]
    exact wellSpaced_ofScript mark base h.2 hn
  | .verbatim content => fun _ _ => by
    rw [ofNode]
    exact wellSpaced_of_noBlankEdge
      (noBlankEdge_around [ensureNewline, noWrap] [endNoWrap] (noBlankEdge_literal _ content)
        rfl rfl)
  | .verb delimiter content => fun h _ => by
    rw [ofNode]
    exact wellSpaced_of_noBlankEdge
      (noBlankEdge_around [noWrap] [endNoWrap] (noBlankEdge_verb h content) rfl rfl)
  | .commentEnvironment content => fun _ _ => by
    rw [ofNode]
    exact wellSpaced_of_noBlankEdge (noBlankEdge_around [ensureNewline, noWrap] [endNoWrap, newline]
      (noBlankEdge_literal _ content) rfl rfl)
  | .comment content sameline => fun _ _ => wellSpaced_comment content sameline
  | .arguments items => fun h hn => by
    rw [ofNode]
    exact (wellSpaced_ofNodes items h.2 hn.2 hn.1).bracketed

theorem wellSpaced_ofNodes : ∀ (items : List Node) {inBody : Bool} {before : Option Node},
    EverywhereAll Solid items → NormalAll items → Spread inBody before items →
    WellSpaced (ofNodes items)
  | [] => fun _ _ _ => wellSpaced_of_noBlankEdge (List.forall_mem_nil _)
  | node :: rest => fun h hn hspread => by
    rw [ofNodes]
    refine (wellSpaced_ofNode node h.1 hn.1).append (wellSpaced_ofNodes rest h.2 hn.2 hspread.2) ?_
    cases hspace : node.isSpace with
    | false =>
      obtain ⟨token, htoken, hne⟩ := (rimmed_ofNode hspace h.1.here).last
      exact Or.inl (by simpa [htoken] using hne)
    | true =>
      -- what follows a space node is no space
      refine Or.inr ?_
      cases rest with
      | nil => simp [ofNodes, loud]
      | cons next rest =>
        have hnext : next.isSpace = false := (hspread.1 hspace).2.1
        obtain ⟨token, htoken, hne⟩ := (rimmed_ofNode hnext h.2.1.here).first
        simpa [ofNodes, htoken] using hne

theorem wellSpaced_ofArgs : ∀ args : Option (List Node), EverywhereArgs Solid args →
    NormalArgs args → WellSpaced (ofArgs args)
  | none => fun _ _ => wellSpaced_of_noBlankEdge (List.forall_mem_nil _)
  | some items => fun h hn => by
    rw [ofArgs]
    exact (wellSpaced_ofNodes items h hn.2 hn.1).bracketed

theorem wellSpaced_ofScript (mark : Mark) : ∀ base : Option Node, EverywhereBase Solid base →
    NormalBase base → WellSpaced (ofScript mark base)
  | none => fun _ _ => by
    rw [ofScript]
    exact wellSpaced_of_noBlankEdge
      (List.forall_mem_singleton.2 (noBlankEdge_mark mark (List.forall_mem_nil _)))
  | some base => fun h hn => by
    have hbase := wellSpaced_ofNode base h hn
    rw [ofScript]
    cases hsingle : base.singleChar? with
    | some c =>
      have hc : isSpace c = false := by
        obtain ⟨content, hcontent, rfl | rfl⟩ := singleChar?_cases hsingle
        · exact isSpace_of_isBlank_eq_false (h.2 c (by simp [hcontent]))
        · exact isSpace_of_isBlank_eq_false (h.2.1.2 c (by simp [hcontent]))
      exact wellSpaced_of_noBlankEdge (List.forall_mem_singleton.2
        (noBlankEdge_mark mark (List.forall_mem_singleton.2 hc)))
    | none =>
      cases hg : base.isGroup with
      | true =>
        have hmark := List.forall_mem_singleton.2 (noBlankEdge_mark mark (List.forall_mem_nil _))
        simpa using hbase.between hmark (List.forall_mem_nil _)
      | false =>
        have hmark := List.forall_mem_singleton.2
          (noBlankEdge_mark mark (List.forall_mem_singleton.2 (rfl : isSpace '{' = false)))
        have hclosing :=
          noBlankEdge_around [] [] (noBlankEdge_singleton '}' rfl) rfl rfl
        simpa [chars] using hbase.between hmark hclosing

end

/-! ## Laying tokens out -/

section Pages

variable (options : TextOptions)

theorem layOut_append (tokens more : List Token) :
    layOut options (tokens ++ more) = more.foldl (Page.step options) (layOut options tokens) :=
  List.foldl_append

/-- Silent directives leave the end of the output as it is. -/
theorem foldl_silent {tokens : List Token} (h : ∀ token ∈ tokens, token.isSilent = true)
    (page : Page) :
    (tokens.foldl (Page.step options) page).out = page.out ∧
      (tokens.foldl (Page.step options) page).hasContent = page.hasContent := by
  induction tokens generalizing page with
  | nil => exact ⟨rfl, rfl⟩
  | cons token rest ih =>
    obtain ⟨htoken, hrest⟩ := List.forall_mem_cons.1 h
    obtain ⟨hout, hcontent⟩ := ih hrest (page.step options token)
    rw [List.foldl_cons, hout, hcontent]
    cases token with
    | indent | endIndent | noWrap | endNoWrap => exact ⟨rfl, rfl⟩
    | _ => cases htoken

theorem hasContent_leaveParagraph {page : Page}
    (h : page.hasContent = (page.ending == .content)) :
    (page.leaveParagraph options).hasContent = false := by
  unfold Page.leaveParagraph
  split
  · next hstart => rw [h, hstart]; rfl
  · rfl
  · rfl

/-- Something stands on the current line exactly if the page ends in content. -/
theorem hasContent_step {page : Page} (h : page.hasContent = (page.ending == .content))
    (token : Token) : (page.step options token).hasContent
      = ((page.step options token).ending == .content) := by
  cases token with
  | text content =>
    simp only [Page.step, Page.write]
    split <;> rfl
  | space =>
    simp only [Page.step]
    split
    · next hcontent => exact hcontent
    · exact h
  | newline => rfl
  | ensureNewline | preferParagraph =>
    simp only [Page.step]
    split
    · rfl
    · exact h
  | ensureParagraph =>
    simp only [Page.step]
    split
    · exact hasContent_leaveParagraph options h
    · exact h
  | paragraphBreak =>
    simp only [Page.step]
    split
    · exact h
    · exact hasContent_leaveParagraph options h
  | indent | endIndent | noWrap | endNoWrap => exact h

theorem hasContent_layOut (tokens : List Token) :
    (layOut options tokens).hasContent = ((layOut options tokens).ending == .content) := by
  have hrun : ∀ page : Page, page.hasContent = (page.ending == .content) →
      (tokens.foldl (Page.step options) page).hasContent
        = ((tokens.foldl (Page.step options) page).ending == .content) := by
    induction tokens with
    | nil => exact fun _ h => h
    | cons token rest ih => exact fun page h => ih _ (hasContent_step options h token)
  exact hrun {} rfl

/-- After a directive for a line break, no content stands on the line, whether it
broke the line or found it fresh. -/
theorem ending_step {token : Token} (htext : token.isText = false) (hspace : token ≠ space)
    (hsilent : token.isSilent = false) (page : Page) :
    ((page.step options token).ending == .content) = false := by
  cases token with
  | text _ => cases htext
  | space => exact absurd rfl hspace
  | indent | endIndent | noWrap | endNoWrap => cases hsilent
  | newline => rfl
  | ensureNewline | preferParagraph =>
    simp only [Page.step]
    split
    · rfl
    · next hending => simpa using hending
  | ensureParagraph =>
    simp only [Page.step]
    split
    · rfl
    · next hending =>
      simp only [Bool.or_eq_true, not_or] at hending
      simpa using hending.1
  | paragraphBreak =>
    simp only [Page.step]
    split
    · next hstart => simp [beq_iff_eq.1 hstart]
    · rfl

/-- The output ends in the text that was written last. -/
theorem exists_out_text (pre : List Token) (a : String) {mids : List Token}
    (hmids : ∀ token ∈ mids, token.isSilent = true) :
    ∃ before, (layOut options (pre ++ text a :: mids)).out = a.toList.reverse ++ before := by
  rw [layOut_append, List.foldl_cons, (foldl_silent options hmids _).1]
  simp only [Page.step, Page.write]
  split <;> exact ⟨_, rfl⟩

/-- There is no loud token, or a last one. -/
theorem exists_last_loud (tokens : List Token) :
    (∀ token ∈ tokens, token.isSilent = true) ∨
      ∃ front writer mids, tokens = front ++ writer :: mids ∧ writer.isSilent = false ∧
        ∀ token ∈ mids, token.isSilent = true := by
  induction tokens with
  | nil => exact Or.inl (List.forall_mem_nil _)
  | cons token rest ih =>
    rcases ih with hsilent | ⟨front, writer, mids, rfl, hwriter, hmids⟩
    · cases htoken : token.isSilent with
      | true => exact Or.inl (List.forall_mem_cons.2 ⟨htoken, hsilent⟩)
      | false => exact Or.inr ⟨[], token, rest, rfl, htoken, hsilent⟩
    · exact Or.inr ⟨token :: front, writer, mids, rfl, hwriter, hmids⟩

/-- What the current line ends in was written by the last loud token, a text or a
space. -/
theorem exists_writer {tokens : List Token} (h : (layOut options tokens).hasContent = true) :
    ∃ front writer mids, tokens = front ++ writer :: mids ∧
      (∀ token ∈ mids, token.isSilent = true) ∧
      ((∃ content before, writer = text content ∧
          (layOut options tokens).out = content.toList.reverse ++ before) ∨
        writer = space ∧ (layOut options front).hasContent = true ∧
          (layOut options tokens).out = ' ' :: (layOut options front).out) := by
  rcases exists_last_loud tokens with hsilent | ⟨front, writer, mids, rfl, hwriter, hmids⟩
  · rw [layOut, (foldl_silent options hsilent {}).2] at h
    cases h
  · have hpage := foldl_silent options hmids ((layOut options front).step options writer)
    rw [layOut_append, List.foldl_cons, hpage.2] at h
    refine ⟨front, writer, mids, rfl, hmids, ?_⟩
    by_cases hspace : writer = space
    · subst hspace
      refine Or.inr ⟨rfl, ?_⟩
      rw [layOut_append, List.foldl_cons, hpage.1]
      simp only [Page.step] at h ⊢
      split
      · next hcontent => exact ⟨hcontent, rfl⟩
      · next hempty => simp [hempty] at h
    cases htext : writer.isText with
    | true =>
      cases writer with
      | text content =>
        obtain ⟨before, hout⟩ := exists_out_text options front content hmids
        exact Or.inl ⟨content, before, rfl, hout⟩
      | _ => cases htext
    | false =>
      rw [hasContent_step options (hasContent_layOut options front),
        ending_step options htext hspace hwriter] at h
      cases h

/-! ## Splitting and joining -/

theorem dropWhile_suffix_append (p : Char → Bool) (xs ys : List Char) :
    ys.dropWhile p <:+ (xs ++ ys).dropWhile p := by
  rw [List.dropWhile_append]
  split
  · exact List.suffix_refl _
  · exact (List.dropWhile_suffix p).trans (List.suffix_append _ _)

theorem dropWhile_suffix_breakLines (count : Nat) (page : Page) :
    page.out.dropWhile isSpace <:+ (page.breakLines options count).out.dropWhile isSpace := by
  have hkept := dropWhile_suffix_append isSpace
    (List.replicate page.indent '\t' ++ List.replicate count '\n') (page.out.dropWhile isSpace)
  rwa [List.dropWhile_idempotent] at hkept

theorem dropWhile_suffix_leaveParagraph (page : Page) :
    page.out.dropWhile isSpace <:+ (page.leaveParagraph options).out.dropWhile isSpace := by
  unfold Page.leaveParagraph
  split
  · exact List.suffix_refl _
  · exact dropWhile_suffix_breakLines options 1 page
  · exact dropWhile_suffix_breakLines options 2 page

/-- A token takes back nothing but blanks at the end of the output. -/
theorem dropWhile_suffix_step (token : Token) (page : Page) :
    page.out.dropWhile isSpace <:+ (page.step options token).out.dropWhile isSpace := by
  cases token with
  | text content =>
    simp only [Page.step, Page.write]
    split
    · exact (dropWhile_suffix_breakLines options 1 page).trans
        (dropWhile_suffix_append isSpace content.toList.reverse _)
    · exact dropWhile_suffix_append isSpace content.toList.reverse page.out
  | space =>
    simp only [Page.step]
    split
    · exact dropWhile_suffix_append isSpace [' '] page.out
    · exact List.suffix_refl _
  | newline => exact dropWhile_suffix_breakLines options 1 page
  | ensureNewline =>
    simp only [Page.step]
    split
    · exact dropWhile_suffix_breakLines options 1 page
    · exact List.suffix_refl _
  | preferParagraph =>
    simp only [Page.step]
    split
    · exact dropWhile_suffix_breakLines options 2 page
    · exact List.suffix_refl _
  | paragraphBreak =>
    simp only [Page.step]
    split
    · exact List.suffix_refl _
    · exact dropWhile_suffix_leaveParagraph options page
  | ensureParagraph =>
    simp only [Page.step]
    split
    · exact dropWhile_suffix_leaveParagraph options page
    · exact List.suffix_refl _
  | indent | endIndent | noWrap | endNoWrap => exact List.suffix_refl _

theorem dropWhile_suffix_foldl (tokens : List Token) (page : Page) :
    page.out.dropWhile isSpace
      <:+ (tokens.foldl (Page.step options) page).out.dropWhile isSpace := by
  induction tokens generalizing page with
  | nil => exact List.suffix_refl _
  | cons token rest ih => exact (dropWhile_suffix_step options token page).trans (ih _)

/-- In what is printed, the second text starts where the first one ends. Blanks at its
end may be gone, but something is left of it. -/
def Abut (pre : List Token) (a b : String) (printed : List Char) : Prop :=
  ∃ written later, (layOut options (pre ++ [text a])).out.reverse = written ++ a.toList ∧
    b.toList.rdropWhile isSpace ≠ [] ∧
    printed = written ++ a.toList ++ b.toList.rdropWhile isSpace ++ later

/-- The text goes to a new line, and this is left of the output before it, last
character first. -/
def BreaksAfter (pre : List Token) (b : String) (before : List Char) : Prop :=
  (layOut options (pre ++ [text b])).out
    = b.toList.reverse ++ (List.replicate (layOut options pre).indent '\t' ++ '\n' :: before)

/-- How a text comes to be wrapped after these tokens: what the new line takes the place
of. -/
inductive Wrapped (pre : List Token) (b : String) : Prop
  /-- A space token, and nothing else. -/
  | space {front mids : List Token} (hpre : pre = front ++ space :: mids)
      (hmids : ∀ token ∈ mids, token.isSilent = true)
      (hspace : (layOut options pre).out = ' ' :: (layOut options front).out)
      (h : BreaksAfter options pre b (layOut options front).out)
  /-- A space token, with the blank of the control space or control tab before it. -/
  | spaceAndBlank {front mids : List Token} (hpre : pre = front ++ space :: mids)
      (hmids : ∀ token ∈ mids, token.isSilent = true)
      (hspace : (layOut options pre).out = ' ' :: (layOut options front).out)
      (hblank : (loud front).getLast?.any isControlBlank = true)
      (h : BreaksAfter options pre b ((layOut options front).out.dropWhile isSpace))
  /-- The blank of a control space. -/
  | controlSpace {front mids : List Token} {before : List Char}
      (hpre : pre = front ++ text "\\ " :: mids)
      (hmids : ∀ token ∈ mids, token.isSilent = true)
      (hout : (layOut options pre).out = ' ' :: '\\' :: before)
      (h : BreaksAfter options pre b ('\\' :: before))

variable {options}

theorem meets_of_wellSpaced {front mids back : List Token} {before after : Token}
    (h : WellSpaced (front ++ before :: (mids ++ after :: back)))
    (hmids : ∀ token ∈ mids, token.isSilent = true) (hbefore : before.isSilent = false)
    (hafter : after.isSilent = false) : Meets before after := by
  have hchain := h.chain
  rw [loud_append, loud_cons hbefore, loud_append, loud_eq_nil hmids, List.nil_append,
    loud_cons hafter] at hchain
  exact (List.isChain_cons_cons.1 (List.isChain_append.1 hchain).2.1).1

/-- A text that does not come before a line break ends in no blank, except for a
control space and a control tab. -/
theorem getLast?_of_meets {content : String} {after : Token} (h : Meets (text content) after)
    (hafter : after ≠ newline) :
    content.toList.getLast?.any isSpace = false ∨ content = "\\ " ∨ content = "\\\t" := by
  cases htrails : (text content).trails with
  | true => exact absurd (h.trails htrails) hafter
  | false =>
    simpa [trails, Token.content, isControlBlank, or_iff_not_imp_left] using htrails

theorem breaksAfter_of_wraps {pre : List Token} {b : String}
    (h : (layOut options pre).wraps options b.toList = true) :
    BreaksAfter options pre b ((layOut options pre).out.dropWhile isSpace) := by
  simp [BreaksAfter, layOut_append, Page.step, Page.write, h, Page.put, Page.breakLines]

theorem ne_nil_of_opensVisibly {content : String} (h : (text content).opensVisibly = true) :
    content.toList.rdropWhile isSpace ≠ [] := by
  intro hnil
  have hall := List.rdropWhile_eq_nil_iff.1 hnil
  cases hcontent : content.toList with
  | nil => simp [opensVisibly, hcontent] at h
  | cons c rest => simp [opensVisibly, hcontent, hall c (by simp [hcontent])] at h

theorem of_wraps {page : Page} {content : List Char} (h : page.wraps options content = true) :
    page.hasContent = true ∧ page.out.head? = some ' ' := by
  simp only [Page.wraps, Bool.and_eq_true, beq_iff_eq] at h
  exact ⟨h.1.1.1.2, h.1.2⟩

/-- A text that is not wrapped joins the text before it. -/
theorem abut_of_not_wraps {pre mids post : List Token} {a b : String}
    (h : WellSpaced (pre ++ text a :: (mids ++ text b :: post)))
    (hmids : ∀ token ∈ mids, token.isSilent = true)
    (hwraps : (layOut options (pre ++ text a :: mids)).wraps options b.toList = false) :
    Abut options pre a b
      (layOut options (pre ++ text a :: (mids ++ text b :: post))).out.reverse := by
  obtain ⟨before, hbefore⟩ := exists_out_text options pre a (List.forall_mem_nil _)
  have hsplit : pre ++ text a :: (mids ++ text b :: post)
      = pre ++ [text a] ++ mids ++ [text b] ++ post := by simp
  have hfirst : (layOut options (pre ++ [text a] ++ mids)).out = a.toList.reverse ++ before := by
    rw [layOut_append, (foldl_silent options hmids _).1, hbefore]
  have hsecond : (layOut options (pre ++ [text a] ++ mids ++ [text b])).out
      = b.toList.reverse ++ (a.toList.reverse ++ before) := by
    rw [layOut_append, ← hfirst]
    simp only [List.append_assoc, List.singleton_append, List.foldl_cons, List.foldl_nil,
      Page.step, Page.write, hwraps, Bool.false_eq_true, if_false, Page.put]
  have hvisible := ne_nil_of_opensVisibly (h.opens (text b) (by simp))
  -- what follows takes back blanks of the second text at most
  have hkept : b.toList.reverse.dropWhile isSpace ++ (a.toList.reverse ++ before)
      <:+ (layOut options (pre ++ text a :: (mids ++ text b :: post))).out := by
    have hdrop := dropWhile_suffix_foldl options post
      (layOut options (pre ++ [text a] ++ mids ++ [text b]))
    rw [← layOut_append, ← hsplit, hsecond, List.dropWhile_append, if_neg] at hdrop
    · exact hdrop.trans (List.dropWhile_suffix _)
    · simpa [List.rdropWhile] using hvisible
  obtain ⟨later, hlater⟩ := hkept
  refine ⟨before.reverse, later.reverse, by simp [hbefore], hvisible, ?_⟩
  simp [← hlater, List.rdropWhile]

/-- A text is wrapped right after another one only if that is a control space. -/
theorem eq_controlSpace_of_wraps {front mids post : List Token} {content b : String}
    {before : List Char} (h : WellSpaced (front ++ text content :: (mids ++ text b :: post)))
    (hmids : ∀ token ∈ mids, token.isSilent = true)
    (hout : (layOut options (front ++ text content :: mids)).out = content.toList.reverse ++ before)
    (hwraps : (layOut options (front ++ text content :: mids)).wraps options b.toList = true) :
    content = "\\ " := by
  have hne : content.toList ≠ [] := fun hnil =>
    ne_nil_of_opensVisibly (h.opens (text content) (by simp)) (by simp [hnil])
  have hlast : content.toList.getLast? = some ' ' := by
    rw [← head?_written hne before, ← hout]
    exact (of_wraps hwraps).2
  have hmeets := meets_of_wellSpaced h hmids rfl rfl
  rcases getLast?_of_meets hmeets (by simp) with hsolid | rfl | rfl
  · simp [hlast, isSpace] at hsolid
  · rfl
  · cases hlast

/-- What a space was written after ends in no blank, except for a control space and a
control tab. -/
theorem dropWhile_before_space {front mids post : List Token} {b : String}
    (h : WellSpaced (front ++ space :: (mids ++ text b :: post)))
    (hcontent : (layOut options front).hasContent = true) :
    (layOut options front).out.dropWhile isSpace = (layOut options front).out ∨
      (loud front).getLast?.any isControlBlank = true := by
  obtain ⟨earlier, writer, silent, rfl, hsilent, hwriter⟩ := exists_writer options hcontent
  rw [List.append_assoc, List.cons_append] at h
  rcases hwriter with ⟨content, before, rfl, hout⟩ | ⟨rfl, -, -⟩
  · have hmeets := meets_of_wellSpaced h hsilent rfl rfl
    have hlast : (loud (earlier ++ text content :: silent)).getLast? = some (text content) := by
      rw [loud_append, loud_cons rfl, loud_eq_nil hsilent, List.getLast?_concat]
    rcases getLast?_of_meets hmeets (by simp) with hsolid | rfl | rfl
    · refine Or.inl ?_
      rw [hout]
      have hvisible := ne_nil_of_opensVisibly (h.opens (text content) (by simp))
      obtain ⟨front, c, hcontent⟩ := List.eq_nil_or_concat content.toList |>.resolve_left
        (fun hnil => hvisible (by simp [hnil]))
      rw [hcontent] at hsolid ⊢
      simpa using hsolid
    · exact Or.inr (by rw [hlast]; rfl)
    · exact Or.inr (by rw [hlast]; rfl)
  · exact absurd rfl ((meets_of_wellSpaced h hsilent rfl rfl).space rfl)

theorem wrapped_of_wraps {pre post : List Token} {b : String}
    (h : WellSpaced (pre ++ text b :: post))
    (hwraps : (layOut options pre).wraps options b.toList = true) : Wrapped options pre b := by
  have hbreaks := breaksAfter_of_wraps hwraps
  obtain ⟨front, writer, mids, rfl, hmids, hwriter⟩ := exists_writer options (of_wraps hwraps).1
  rw [List.append_assoc, List.cons_append] at h
  rcases hwriter with ⟨content, before, rfl, hout⟩ | ⟨rfl, hcontent, hout⟩
  · obtain rfl := eq_controlSpace_of_wraps h hmids hout hwraps
    have hblank : (layOut options (front ++ text "\\ " :: mids)).out = ' ' :: '\\' :: before := hout
    rw [hblank] at hbreaks
    exact .controlSpace rfl hmids hblank hbreaks
  · rw [hout, List.dropWhile_cons_of_pos rfl] at hbreaks
    rcases dropWhile_before_space h hcontent with hkept | hblank
    · exact .space rfl hmids hout (hkept ▸ hbreaks)
    · exact .spaceAndBlank rfl hmids hout hblank hbreaks

end Pages

end Token

/-! ## Trees that are read -/

theorem solid_of_wellFormed {node : Node} (h : WellFormed node) (hblankless : Blankless node) :
    node.Solid := by
  cases node with
  | list _ => exact h.elim
  | string content => exact ⟨h, hblankless⟩
  | command name args => exact h.1
  | verb delimiter content =>
    cases hspace : isSpace delimiter with
    | false => exact hspace
    | true =>
      have hwhite := h.2.1
      simp only [isSpace, Bool.or_eq_true, beq_iff_eq] at hspace
      rcases hspace with rfl | rfl <;> cases hwhite
  | _ => trivial

theorem survives_solid : Survives Node.Solid where
  whitespace := trivial
  parbreak := trivial
  tidy node h := by cases node <;> exact h

/-- The tokens of a text that was read. -/
theorem wellSpaced_of_read {source : String} {tree : Node}
    (hread : parseNormalized source = .ok tree) : Token.WellSpaced (Token.ofNode tree) := by
  cases hparse : parse source with
  | error error =>
    rw [parseNormalized, hparse] at hread
    cases hread
  | ok read =>
    obtain ⟨nodes, rfl, hnodes⟩ := everywhere_of_parse hparse
    rw [parseNormalized, hparse] at hread
    cases hread
    have hsolid : EverywhereAll Node.Solid nodes := by
      rw [everywhereAll_iff] at hnodes ⊢
      intro node hnode
      have hvisits := everywhere_iff_walk.1 (hnodes node hnode)
      exact everywhere_iff_walk.2 fun visit hvisit =>
        solid_of_wellFormed (hvisits visit hvisit).1 (hvisits visit hvisit).2
    obtain ⟨hspread, hnormal⟩ := normal_tidy (.list nodes)
    have htidy := everywhereAll_collapse survives_solid false
      (everywhere_tidyAll survives_solid nodes hsolid)
    exact Token.wellSpaced_ofNodes _ htidy hnormal hspread

namespace Token

/-- Texts that only silent directives stand between are printed one right after the
other, unless the first is a control space at which the second is wrapped. A wrap
takes the place of a space token, with nothing else unless a control space or a
control tab stands before it, or of the blank of a control space. -/
theorem wraps_replace_spaces (options : TextOptions) {source : String} {tree : Node}
    (hread : parseNormalized source = .ok tree) :
    (∀ (pre : List Token) (a : String) (mids : List Token) (b : String) (post : List Token),
      ofNode tree = pre ++ text a :: (mids ++ text b :: post) →
      (∀ token ∈ mids, token.isSilent = true) →
      Abut options pre a b (printTokens options tree).toList ∨
        a = "\\ " ∧ (layOut options (pre ++ text a :: mids)).wraps options b.toList = true) ∧
    ∀ (pre : List Token) (b : String) (post : List Token), ofNode tree = pre ++ text b :: post →
      (layOut options pre).wraps options b.toList = true → Wrapped options pre b := by
  have hspaced := wellSpaced_of_read hread
  refine ⟨fun pre a mids b post htokens hmids => ?_, fun pre b post htokens hwraps => ?_⟩
  · rw [printTokens, render, htokens, String.toList_ofList]
    rw [htokens] at hspaced
    cases hwraps : (layOut options (pre ++ text a :: mids)).wraps options b.toList with
    | false => exact Or.inl (abut_of_not_wraps hspaced hmids hwraps)
    | true =>
      obtain ⟨before, hout⟩ := exists_out_text options pre a hmids
      exact Or.inr ⟨eq_controlSpace_of_wraps hspaced hmids hout hwraps, rfl⟩
  · rw [htokens] at hspaced
    exact wrapped_of_wraps hspaced hwraps

/-- A word, a space, and a word with a group right after it. -/
def joinedNodes : List Node :=
  [.string "aaa", .whitespace, .string "bb", .group [.string "c"]]

theorem wraps_replace_spaces_joined :
    parseNormalized "aaa bb\x7bc\x7d" = .ok (.list joinedNodes) ∧
      printTokens ⟨5, 8⟩ (.list joinedNodes) = "aaa\nbb\x7bc\x7d" ∧
      Abut ⟨5, 8⟩ [text "aaa", space] "bb" "\x7b" (printTokens ⟨5, 8⟩ (.list joinedNodes)).toList ∧
      Wrapped ⟨5, 8⟩ [text "aaa", space] "bb" := by
  have hparse : parse "aaa bb\x7bc\x7d" = .ok (.list joinedNodes) := by
    unfold parse readDocument
    rw [readDocumentBy_cached]
    rfl
  have hread : parseNormalized "aaa bb\x7bc\x7d" = .ok (.list joinedNodes) := by
    rw [parseNormalized, hparse]
    rfl
  obtain ⟨hjoin, hwrap⟩ := wraps_replace_spaces ⟨5, 8⟩ hread
  have habut := hjoin [text "aaa", space] "bb" [noWrap] "\x7b"
    [text "c", text "\x7d", endNoWrap] rfl (by simp [isSilent])
  have hwrapped := hwrap [text "aaa", space] "bb"
    [noWrap, text "\x7b", text "c", text "\x7d", endNoWrap] rfl (by decide)
  exact ⟨hread, by decide +kernel, habut.resolve_right fun h => absurd h.1 (by decide), hwrapped⟩

/-- Right after a control space, a word goes to a new line, and the backslash is left
behind. -/
theorem wrap_splits_control_space :
    let tree : Node := .list [.string "aaa", .command " " none, .string "bbb"]
    parseNormalized "aaa\\ bbb" = .ok tree ∧
      ofNode tree = [text "aaa", text "\\ ", text "bbb"] ∧
      printTokens ⟨5, 8⟩ tree = "aaa\\\nbbb" ∧
      ¬ Abut ⟨5, 8⟩ [text "aaa"] "\\ " "bbb" (printTokens ⟨5, 8⟩ tree).toList := by
  intro tree
  have hparse : parse "aaa\\ bbb" = .ok tree := by
    unfold parse readDocument
    rw [readDocumentBy_cached]
    rfl
  have hprinted : printTokens ⟨5, 8⟩ tree = "aaa\\\nbbb" := by decide +kernel
  refine ⟨by rw [parseNormalized, hparse]; rfl, rfl, hprinted, ?_⟩
  rintro ⟨written, later, hwritten, -, hprint⟩
  rw [hprinted, ← hwritten, List.append_assoc] at hprint
  have hprefix : "aaa\\ ".toList <+: "aaa\\\nbbb".toList := ⟨_, hprint.symm⟩
  exact absurd hprefix (by decide)

end Token

end LatexFormatter
