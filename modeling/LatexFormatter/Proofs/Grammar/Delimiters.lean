import LatexFormatter.Proofs.Grammar.Abreast
import LatexFormatter.Proofs.Grammar.Spelling

/-
  Math in other delimiters. A document that is one piece of math behind a
  backslash is the same document with dollars instead (`math_delimiters_agree`).
  The first document tells where its math ends, and that the way there is a
  trail; on it both documents are read in step, token by token. At the end each
  of them sees the delimiter that closes it.
-/

namespace LatexFormatter

/-! ## The math itself -/

namespace Exchange

/-- Where the sequence of the first side ends at its delimiter, that of the second
side ends at the other one, with the same trees. -/
theorem relates_body (x : Exchange) (n : Nat) : ∀ u here there, x.InStep u here there →
    here.rest.length < n →
    Relates (fun found found' => found.1.rest = x.old.closing →
        found'.1.rest = x.new.closing ∧ found.2 = found'.2)
      ((Ahead.within Retrieval.fresh n).sequence .math (some x.old.closing) here)
      ((Ahead.within Retrieval.fresh n).sequence .math (some x.new.closing) there) := by
  induction n with
  | zero => exact fun _ _ _ _ h => absurd h (Nat.not_lt_zero _)
  | succ n ih =>
    intro u here there h hn
    have hl := x.agrees_within n
    have ht := treads_within x.no_verb n
    show Relates _ (sequence (Ahead.within Retrieval.fresh n) .math (some x.old.closing) here)
      (sequence (Ahead.within Retrieval.fresh n) .math (some x.new.closing) there)
    by_cases hne : u = []
    · -- both sides have come to what closes them
      subst hne
      have hold : stopsAt (some x.old.closing) here = true := by
        simp [stopsAt, Cursor.sees, h.rest]
      have hnew : stopsAt (some x.new.closing) there = true := by
        simp [stopsAt, Cursor.sees, h.rest']
      exact relates_of_gives (gives_sequence_stop (Or.inr hold))
        (gives_sequence_stop (Or.inr hnew)) fun _ => ⟨h.rest', rfl⟩
    · have hlonger : here.rest ≠ x.old.closing := by
        intro heq
        have hlength := h.length
        have hpos := List.length_pos_iff.2 hne
        rw [heq, x.length_old] at hlength
        omega
      cases hstop : stopsAt (some x.old.closing) here with
      | true =>
        intro memory memory' hrest
        rw [gives_sequence_stop (Or.inr hstop) memory] at hrest
        exact absurd hrest hlonger
      | false =>
        have hstop' : stopsAt (some x.new.closing) there = false := by
          obtain ⟨c, more, rfl⟩ := List.exists_cons_of_ne_nil hne
          obtain ⟨-, hrest', hc⟩ := h.cons
          rcases x.new_eq with heq | heq <;> rw [heq] <;>
            exact Cursor.sees_eq_false hrest' hc.symm
        refine relates_sequence_of_token hl ht h hne (by omega) hstop hstop'
          (fun heq => absurd heq hlonger) ?_ ?_
        · rintro more rfl
          have hlength := h.length
          refine ih more _ _ (h.tail (by decide) (by decide)) ?_
          rw [Cursor.length_skip]
          omega
        · intro v next next' item hv hlt
          refine (ih v next next' hv (by omega)).mono ?_
          intro found found' hfound hrest
          obtain ⟨hrest', hitems⟩ := hfound hrest
          exact ⟨hrest', by rw [hitems]⟩

end Exchange

/-! ## A document that is one piece of math -/

/-- A text between delimiters of math. -/
def MathDelimiter.around (delimiter : MathDelimiter) (body : List Char) : List Char :=
  delimiter.opening ++ body ++ delimiter.closing

/-- What the sequence behind the opening delimiter of a document comes to, however
far ahead its readers can look. -/
theorem exists_body (delimiter : MathDelimiter) (body : List Char) :
    ∃ last items, ∀ n, (delimiter.around body).length ≤ n →
      Gives ((Ahead.within Retrieval.fresh n).sequence .math (some delimiter.closing)
        ((Cursor.start (delimiter.around body)).skip delimiter.opening.length)) (last, items) := by
  have hl := lookahead grows_true (Nat.le_refl (delimiter.around body).length)
  have hpos : 0 < delimiter.opening.length := by cases delimiter <;> decide
  obtain ⟨⟨last, items⟩, notes, -, hamounts⟩ := hl.sequence .math (some delimiter.closing) _
    ((Cursor.within_start (delimiter.around body)).skip delimiter.opening.length) (by
      simp only [Cursor.length_skip, Cursor.start, MathDelimiter.around, List.length_append]
      omega)
  refine ⟨last, items, fun n hn memory => ?_⟩
  rw [hamounts.memoryFree n hn memory]

/-- The math that opens a document closes if its sequence stops where it may. -/
theorem finds_around {delimiter : MathDelimiter} {body : List Char} {last : Cursor}
    {items : List ParseTree} {n : Nat}
    (h : Gives ((Ahead.within Retrieval.fresh n).sequence .math (some delimiter.closing)
      ((Cursor.start (delimiter.around body)).skip delimiter.opening.length)) (last, items)) :
    Finds (delimitedMath (Ahead.within Retrieval.fresh n) delimiter
        (Cursor.start (delimiter.around body)))
      (if last.sees delimiter.closing then
        some (last.skip delimiter.closing.length, .enclosing delimiter.kind items)
      else none) := by
  have hsees : (Cursor.start (delimiter.around body)).sees delimiter.opening = true := by
    rw [Cursor.sees, List.isPrefixOf_iff_prefix, Cursor.start, MathDelimiter.around,
      List.append_assoc]
    exact List.prefix_append _ _
  rw [delimitedMath, hsees, Ahead.retrieve_within]
  refine h.lift.bind ?_
  cases hlast : last.sees delimiter.closing with
  | true => exact (finds_literal_of_sees hlast).bind (finds_pure _)
  | false => exact (finds_literal_none hlast).bind_none _

/-! ## The document behind backslashes -/

section Commands

variable {ahead : Ahead} {here : Cursor} {more : List Char}

/-- A backslash begins no token of running text. -/
theorem finds_textToken_none (h : here.rest = '\\' :: more) (mode : Mode) :
    Finds (textToken ahead mode here) none := by
  have hparbreak : parbreakLength here.rest = 0 := by
    simp [parbreakLength, h, isBlank, isSpace, isLineBreak, countLineEndings]
  have hwhitespace : whitespaceLength here.rest = 0 := by
    rw [h]
    exact whitespaceLength_cons (by decide)
  have hnumber : numberLength here.rest = 0 := by
    simp [numberLength, runLength, h, isDigit]
  unfold textToken
  refine (finds_group_none ahead h (by decide)).orElse_none ((finds_delimitedMath_none ahead .dollar
    (Cursor.sees_eq_false h (by decide))).orElse_none ?_)
  rw [Cursor.peek_of_rest h, hparbreak, hwhitespace, hnumber]
  refine (finds_ofOption none).orElse_none
    ((finds_script_none ahead h (by decide) (by decide)).orElse_none
    (finds_failure.orElse_none ((finds_ofOption none).orElse_none ?_)))
  rw [word, Cursor.peek_of_rest h]
  exact finds_fail _ _

/-- Where a backslash opens nothing, what is read is a command. -/
theorem ensures_token_command (h : here.rest = '\\' :: more) (ho : Finds (opened ahead here) none) :
    Ensures (token ahead .text here) fun found =>
      ∃ name args, found.2 = .record .command (some name) none args false none := by
  have hcomment : comment? here = none := comment_eq_none (by
    rw [h]
    simp [isBlank, isSpace, isLineBreak])
  unfold token
  rw [hcomment]
  refine Ensures.orElse (ho.ensures.mono fun _ hnone => ?_) fun _ => ?_
  · cases hnone
  refine Ensures.orElse ?_ fun _ => Ensures.orElse (ensures_ofOption (by simp)) fun _ => ?_
  · unfold command
    refine ensures_ite (fun _ => ensures_failure) fun _ => ?_
    dsimp only
    refine ensures_ite (fun _ => ensures_fail_bind _ _ _) fun _ => ?_
    refine ensures_ite (fun _ => ensures_failure_bind _) fun _ => ?_
    refine Ensures.bind (p := fun _ => True) (fun _ _ _ => trivial) ?_
    rintro ⟨next, args⟩ -
    exact ensures_pure ⟨_, args, rfl⟩
  · refine (finds_textToken_none h .text).ensures.mono fun _ hnone => ?_
    cases hnone

end Commands

/-- A text that derives nothing is made of null characters. -/
theorem DerivesAll.eq_null : ∀ {mode : Mode} {text rest : List Char},
    DerivesAll mode text [] rest → ∀ c ∈ text, c = '\x00'
  | _, _, _, .nil => by simp
  | _, _, _, .null h => by simpa using h.eq_null

/-- A sequence that reaches the end of the text holds a first token and what comes
after it. -/
theorem exists_first {ahead : Ahead} {mode : Mode} {here stop : Cursor} {c : Char}
    {more : List Char} {trees : List ParseTree} {p : Found → Prop} (h : here.rest = c :: more)
    (hc : c ≠ '\x00') (hs : Gives (sequence ahead mode none here) (stop, trees))
    (hstop : stop.rest = []) (hp : Ensures (token ahead mode here) p) :
    ∃ first rest memory, p first ∧ trees = first.2 :: rest ∧
      ((ahead.sequence mode none first.1).run memory).1 = (stop, rest) := by
  have hyields : Yields (sequence ahead mode none here) fun found => found.1 = here ∨
      ∃ first rest memory, p first ∧ found.2 = first.2 :: rest ∧
        ((ahead.sequence mode none first.1).run memory).1 = (found.1, rest) := by
    unfold sequence
    rw [Cursor.peek_of_rest h]
    dsimp only
    rw [if_neg (by simp [stopsAt]), if_neg (by simpa using hc)]
    refine Yields.bind hp ?_
    intro outcome houtcome
    cases outcome with
    | none => exact yields_pure (Or.inl rfl)
    | some first =>
      intro memory
      exact Or.inr ⟨first, _, memory, houtcome first rfl, rfl, rfl⟩
  have hfirst := hyields Memory.blank
  rw [hs Memory.blank] at hfirst
  rcases hfirst with hhere | hfirst
  · -- nothing would be read, but there is text
    dsimp only at hhere
    rw [hhere, h] at hstop
    cases hstop
  · exact hfirst

/-- A document that is read has a sequence that reaches the end of the text. -/
theorem exists_of_parse {text : List Char} {nodes : List Node}
    (h : parse (String.ofList text) = .ok (.list nodes)) :
    ∃ stop trees, stop.rest = [] ∧ Node.ofItems trees = .ok nodes ∧
      Gives (sequence (Ahead.within Retrieval.fresh text.length) .text none (Cursor.start text))
        (stop, trees) := by
  obtain ⟨⟨stop, trees⟩, notes, -, hamounts⟩ := settles_document grows_true text
  have hgives : Gives ((Ahead.within Retrieval.fresh (text.length + 1)).sequence .text none
      (Cursor.start text)) (stop, trees) := by
    intro memory
    rw [hamounts.memoryFree _ (Nat.le_refl _) memory]
  have hsequence : (readSequence Retrieval.fresh text).1 = (stop, trees) := hgives Memory.blank
  unfold parse readDocument at h
  rw [String.toList_ofList, readDocumentBy_cached] at h
  unfold readDocumentBy at h
  generalize readSequence Retrieval.fresh text = result at hsequence h
  obtain ⟨⟨last, items⟩, memory⟩ := result
  cases hsequence
  dsimp only at h
  by_cases hempty : stop.rest.isEmpty = true
  · rw [if_pos hempty] at h
    refine ⟨stop, trees, List.isEmpty_iff.1 hempty, ?_, hgives⟩
    simp only [Node.ofParseTree] at h
    cases hitems : Node.ofItems trees with
    | error fault =>
      rw [hitems] at h
      cases h
    | ok built =>
      rw [hitems] at h
      cases h
      rfl
  · rw [if_neg hempty] at h
    cases h

/-- Each tree of a list is built into one node. -/
theorem ofItems_cons {tree : ParseTree} {trees : List ParseTree} {nodes : List Node}
    (h : Node.ofItems (tree :: trees) = .ok nodes) :
    ∃ node rest, nodes = node :: rest ∧ Node.ofParseTree tree = .ok node ∧
      Node.ofItems trees = .ok rest := by
  simp only [Node.ofItems] at h
  cases htree : Node.ofParseTree tree with
  | error fault =>
    rw [htree] at h
    cases h
  | ok node =>
    cases htrees : Node.ofItems trees with
    | error fault =>
      rw [htree, htrees] at h
      cases h
    | ok rest =>
      rw [htree, htrees] at h
      cases h
      exact ⟨node, rest, rfl, rfl, rfl⟩

/-- The node that a tree of math is built into. -/
theorem ofParseTree_math (delimiter : MathDelimiter) (items : List ParseTree) :
    Node.ofParseTree (.enclosing delimiter.kind items)
      = (fun body => delimiter.node body) <$> Node.ofItems items := by
  cases delimiter with
  | dollar | dollars | parentheses | brackets =>
    simp only [ParseTree.enclosing, MathDelimiter.kind, Node.ofParseTree, Node.ofContent]
    rfl

theorem ofParseTree_command (delimiter : MathDelimiter) (name : String) (args : Option ParseTree)
    (body : List Node) :
    Node.ofParseTree (.record .command (some name) none args false none)
      ≠ .ok (delimiter.node body) := by
  intro h
  simp only [Node.ofParseTree] at h
  cases hargs : Node.ofArgs args with
  | error fault =>
    rw [hargs] at h
    cases h
  | ok built =>
    rw [hargs] at h
    cases delimiter <;> cases h

theorem MathDelimiter.node_injective (delimiter : MathDelimiter) {body body' : List Node}
    (h : delimiter.node body = delimiter.node body') : body = body' := by
  cases delimiter <;> simpa [MathDelimiter.node] using h

/-- What a text ends with is in every part of it that reaches its end. -/
theorem mem_of_suffix {text front : List Char} {c : Char} (h : text <:+ front ++ [c])
    (hne : text ≠ []) : c ∈ text := by
  obtain ⟨before, hbefore⟩ := h
  obtain ⟨init, last, rfl⟩ := (List.eq_nil_or_concat text).resolve_left hne
  rw [List.concat_eq_append, ← List.append_assoc] at hbefore
  have hlast : [last] = [c] := List.append_inj_right' hbefore rfl
  simp [List.cons.inj hlast]

section Backslashes

variable {delimiter : MathDelimiter} (hd : delimiter = .parentheses ∨ delimiter = .brackets)
  {body : List Char} {last : Cursor} {items : List ParseTree}

include hd

theorem exists_start (body : List Char) : ∃ c, isLetter c = false ∧ c ≠ '\\' ∧
    (Cursor.start (delimiter.around body)).rest = '\\' :: c :: (body ++ delimiter.closing) := by
  rcases hd with rfl | rfl
  · exact ⟨'(', by decide, by decide, rfl⟩
  · exact ⟨'[', by decide, by decide, rfl⟩

/-- What opens the document is its math, or nothing. -/
theorem finds_opened_around {n : Nat} {outcome : Option Found}
    (h : Finds (delimitedMath (Ahead.within Retrieval.fresh n) delimiter
      (Cursor.start (delimiter.around body))) outcome) :
    Finds (opened (Ahead.within Retrieval.fresh n) (Cursor.start (delimiter.around body)))
      outcome := by
  obtain ⟨c, hc, -, hrest⟩ := exists_start hd body
  have hf := Ahead.retrieve_within Retrieval.fresh n
  have hnone : ∀ other : MathDelimiter,
      (Cursor.start (delimiter.around body)).sees other.opening = false →
      Finds (delimitedMath (Ahead.within Retrieval.fresh n) other
        (Cursor.start (delimiter.around body))) none :=
    fun other => finds_delimitedMath_none _ other
  rcases hd with rfl | rfl
  · simpa using finds_opened_of_char hf hrest hc (hnone .brackets rfl) h
  · simpa using finds_opened_of_char hf hrest hc h (hnone .parentheses rfl)

omit hd in
theorem suffix_of_gives {n : Nat}
    (h : Gives ((Ahead.within Retrieval.fresh n).sequence .math (some delimiter.closing)
      ((Cursor.start (delimiter.around body)).skip delimiter.opening.length)) (last, items)) :
    last.rest <:+ delimiter.around body := by
  obtain ⟨text, -, htext, -, -⟩ := (understands_within n).sequence .math (some delimiter.closing)
    ((Cursor.start (delimiter.around body)).skip delimiter.opening.length) Memory.blank
  rw [h Memory.blank] at htext
  exact List.IsSuffix.trans ⟨text, htext.symm⟩ (List.drop_suffix _ _)

/-- No null character is behind what closes a document. -/
theorem rest_of_null {n : Nat} (hs : last.rest <:+ delimiter.around body)
    (hnull : ∀ c ∈ (last.skip n).rest, c = '\x00') : (last.skip n).rest = [] := by
  obtain ⟨front, c, hfront, hc⟩ : ∃ front c, delimiter.around body = front ++ [c] ∧
      c ≠ '\x00' := by
    rcases hd with rfl | rfl
    · exact ⟨['\\', '('] ++ body ++ ['\\'], ')',
        by simp [MathDelimiter.around, MathDelimiter.opening, MathDelimiter.closing], by decide⟩
    · exact ⟨['\\', '['] ++ body ++ ['\\'], ']',
        by simp [MathDelimiter.around, MathDelimiter.opening, MathDelimiter.closing], by decide⟩
  by_contra hne
  rw [hfront] at hs
  exact hc (hnull c (mem_of_suffix ((List.drop_suffix n last.rest).trans hs) hne))

/-- A document that is one piece of math has a sequence that ends at the delimiter
which closes the document, and holds what the math is built from. -/
theorem body_of_parse {nodes : List Node}
    (h : parse (String.ofList (delimiter.around body)) = .ok (.list [delimiter.node nodes]))
    (hgives : Gives ((Ahead.within Retrieval.fresh (delimiter.around body).length).sequence .math
      (some delimiter.closing)
      ((Cursor.start (delimiter.around body)).skip delimiter.opening.length)) (last, items)) :
    last.rest = delimiter.closing ∧ Node.ofItems items = .ok nodes := by
  obtain ⟨stop, trees, hstop, htrees, hsequence⟩ := exists_of_parse h
  obtain ⟨c, -, -, hrest⟩ := exists_start hd body
  have hopened := finds_opened_around hd (finds_around hgives)
  have hu := understands_within (delimiter.around body).length
  cases hsees : last.sees delimiter.closing with
  | false =>
    -- then the first token is a command, which is no math
    rw [hsees] at hopened
    obtain ⟨first, rest, -, ⟨name, args, hcommand⟩, rfl, -⟩ :=
      exists_first hrest (by decide) hsequence hstop (ensures_token_command hrest hopened)
    obtain ⟨node, others, hnode, htree, -⟩ := ofItems_cons htrees
    rw [← (List.cons.inj hnode).1, hcommand] at htree
    exact absurd htree (ofParseTree_command delimiter name args nodes)
  | true =>
    rw [hsees, if_pos rfl] at hopened
    obtain ⟨first, rest, memory, hfound, rfl, hafter⟩ :=
      exists_first hrest (by decide) hsequence hstop hopened.orElse.ensures
    cases hfound
    obtain ⟨node, others, hnode, htree, hmore⟩ := ofItems_cons htrees
    obtain ⟨rfl, rfl⟩ := List.cons.inj hnode
    have hrest' : rest = [] := by
      cases rest with
      | nil => rfl
      | cons tree trees =>
        obtain ⟨_, _, hnil, -, -⟩ := ofItems_cons hmore
        cases hnil
    subst hrest'
    have hreached : (last.skip delimiter.closing.length).rest = [] := by
      obtain ⟨text, built, htext, hbuilt, hderives⟩ :=
        hu.sequence .text none (last.skip delimiter.closing.length) memory
      rw [hafter] at htext hbuilt hderives
      cases hbuilt
      rw [hstop, List.append_nil] at htext
      exact rest_of_null hd (suffix_of_gives hgives) (by rw [htext]; exact hderives.eq_null)
    refine ⟨?_, ?_⟩
    · obtain ⟨more, hmore⟩ := List.isPrefixOf_iff_prefix.1 hsees
      rw [Cursor.rest_skip, ← hmore, List.drop_left] at hreached
      rw [← hmore, hreached, List.append_nil]
    · rw [ofParseTree_math] at htree
      cases hitems : Node.ofItems items with
      | error fault =>
        rw [hitems] at htree
        cases htree
      | ok built =>
        rw [hitems] at htree
        rw [delimiter.node_injective (Except.ok.inj htree)]

theorem noVerb_around (h : NoVerb body) : NoVerb (delimiter.around body) := by
  obtain ⟨c, hc, hne, hrest⟩ := exists_start hd body
  rw [show delimiter.around body = '\\' :: c :: (body ++ delimiter.closing) from hrest]
  intro hverb
  rw [List.infix_cons_iff, List.infix_cons_iff] at hverb
  rcases hverb with hverb | hverb | hverb
  · rw [List.cons_prefix_cons, List.cons_prefix_cons] at hverb
    rw [← hverb.2.1] at hc
    exact absurd hc (by decide)
  · rw [List.cons_prefix_cons] at hverb
    exact hne hverb.1.symm
  · exact h (infix_closing_of_tail (by decide) (by decide) hverb)

end Backslashes

/-! ## The document between dollars -/

/-- The math that opens a document between dollars is its first token. -/
theorem finds_token_around {delimiter : MathDelimiter}
    (hd : delimiter = .dollar ∨ delimiter = .dollars) {body : List Char} (hb : '$' ∉ body) {n : Nat}
    {found : Found}
    (h : Finds (delimitedMath (Ahead.within Retrieval.fresh n) delimiter
      (Cursor.start (delimiter.around body))) (some found)) :
    Finds (token (Ahead.within Retrieval.fresh n) .text (Cursor.start (delimiter.around body)))
      (some found) := by
  rcases hd with rfl | rfl
  · refine finds_token_dollar rfl ?_ h
    cases body with
    | nil =>
      -- two dollars open math as well, but nothing closes it
      rw [delimitedMath, Ahead.retrieve_within]
      exact (gives_within_end n rfl).lift.bind ((finds_literal_none rfl).bind_none _)
    | cons c body =>
      have hc : '$' ≠ c := by
        rintro rfl
        exact hb (by simp)
      apply finds_delimitedMath_none
      simp [Cursor.sees, Cursor.start, MathDelimiter.around, MathDelimiter.opening, List.isPrefixOf,
        hc]
  · exact h.orElse

/-- The two documents are in step where their math begins. -/
theorem inStep_start {old new : MathDelimiter} (ho : old = .parentheses ∨ old = .brackets)
    (hn : new = .dollar ∨ new = .dollars) {body : List Char} (hdollar : '$' ∉ body)
    (hverb : NoVerb body) {last : Cursor} {items : List ParseTree}
    (hlast : last.rest = old.closing)
    (hno : NoVerb (old.around body))
    (hgives : ∀ n, (old.around body).length ≤ n →
      Gives ((Ahead.within Retrieval.fresh n).sequence .math (some old.closing)
        ((Cursor.start (old.around body)).skip old.opening.length)) (last, items)) :
    Exchange.InStep ⟨old.around body, last, old, new, ho, hn, hlast, hno⟩ body
      ((Cursor.start (old.around body)).skip old.opening.length)
      ((Cursor.start (new.around body)).skip new.opening.length) where
  rest := by simp [Cursor.start, MathDelimiter.around]
  rest' := by simp [Cursor.start, MathDelimiter.around]
  fresh := by
    rcases ho with rfl | rfl <;> rcases hn with rfl | rfl <;> rfl
  no_dollar := hdollar
  no_verb := hverb
  within := (Cursor.within_start _).skip _
  trail := by
    have hlength : ((Cursor.start (old.around body)).skip old.opening.length).rest.length
        < (old.around body).length + 1 := Nat.lt_succ_of_le (Cursor.Within.length_le
          ((Cursor.within_start (old.around body)).skip _))
    have htrail := (treads_within hno ((old.around body).length + 1)).sequence .math
      (some old.closing) _ ((Cursor.within_start _).skip _) hlength Memory.blank
    rw [hgives _ (Nat.le_succ _)] at htrail
    exact htrail

/-- A document that is math behind a backslash is the same math between dollars. -/
theorem parse_around {old new : MathDelimiter} (ho : old = .parentheses ∨ old = .brackets)
    (hn : new = .dollar ∨ new = .dollars) {body : List Char} (hdollar : '$' ∉ body)
    (hverb : NoVerb body) {nodes : List Node}
    (h : parse (String.ofList (old.around body)) = .ok (.list [old.node nodes])) :
    parse (String.ofList (new.around body)) = .ok (.list [new.node nodes]) := by
  obtain ⟨last, items, hgives⟩ := exists_body old body
  obtain ⟨hlast, hitems⟩ := body_of_parse ho h (hgives _ (Nat.le_refl _))
  obtain ⟨last', items', hgives'⟩ := exists_body new body
  have hno := noVerb_around ho hverb
  let x : Exchange := ⟨old.around body, last, old, new, ho, hn, hlast, hno⟩
  have hstep : x.InStep body ((Cursor.start (old.around body)).skip old.opening.length)
      ((Cursor.start (new.around body)).skip new.opening.length) :=
    inStep_start ho hn hdollar hverb hlast hno hgives
  have hbody := x.relates_body ((old.around body).length + (new.around body).length + 1) body _ _
    hstep (Nat.lt_succ_of_le (Nat.le_trans (hstep.within.length_le) (Nat.le_add_right _ _)))
    Memory.blank Memory.blank
  rw [hgives _ (by omega), hgives' _ (by omega)] at hbody
  obtain ⟨hlast', rfl⟩ := hbody hlast
  have hsees : last'.sees new.closing = true := by
    rw [Cursor.sees, show last'.rest = new.closing from hlast', List.isPrefixOf_iff_prefix]
  have hmath := finds_around (hgives' _ (Nat.le_refl _))
  rw [if_pos hsees] at hmath
  have hend : (last'.skip new.closing.length).rest = [] := by
    rw [Cursor.rest_skip, show last'.rest = new.closing from hlast', List.drop_length]
  have hbuilt : Node.ofItems [.enclosing new.kind items] = .ok [new.node nodes] := by
    simp only [Node.ofItems, ofParseTree_math, hitems]
    rfl
  obtain ⟨more, hmore⟩ : ∃ more, (Cursor.start (new.around body)).rest = '$' :: more := by
    rcases hn with rfl | rfl <;> exact ⟨_, rfl⟩
  exact parse_of_gives hend hbuilt (gives_sequence_cons hmore (by decide) rfl
    (finds_token_around hn hdollar hmath) (gives_within_end _ hend))

theorem ofList_around (delimiter : MathDelimiter) (body : String) :
    String.ofList (delimiter.around body.toList)
      = String.ofList delimiter.opening ++ body ++ String.ofList delimiter.closing := by
  simp [MathDelimiter.around, String.ofList_append, String.append_assoc]

/-- Math behind backslashes means what it means between dollars: if a document is
one piece of math in one way, it is the same piece of math in the other. -/
theorem math_delimiters_agree (body : String) (hdollar : '$' ∉ body.toList)
    (hverb : ¬ "\\verb".toList <:+: body.toList) :
    (∀ nodes, parse ("\\(" ++ body ++ "\\)") = .ok (.list [.inlineMath nodes]) →
      parse ("$" ++ body ++ "$") = .ok (.list [.inlineMath nodes])) ∧
    (∀ nodes, parse ("\\[" ++ body ++ "\\]") = .ok (.list [.displayMath nodes]) →
      parse ("$$" ++ body ++ "$$") = .ok (.list [.displayMath nodes])) := by
  constructor
  · intro nodes h
    have hold := ofList_around .parentheses body
    have hnew := ofList_around .dollar body
    have hparse : parse (String.ofList (MathDelimiter.dollar.around body.toList))
        = .ok (.list [.inlineMath nodes]) :=
      parse_around (Or.inl rfl) (Or.inl rfl) hdollar hverb (hold ▸ h)
    rwa [hnew] at hparse
  · intro nodes h
    have hold := ofList_around .brackets body
    have hnew := ofList_around .dollars body
    have hparse : parse (String.ofList (MathDelimiter.dollars.around body.toList))
        = .ok (.list [.displayMath nodes]) :=
      parse_around (Or.inr rfl) (Or.inr rfl) hdollar hverb (hold ▸ h)
    rwa [hnew] at hparse

/-- Arguments that are never closed run into the delimiter and past it, and the
blank before the base of a script is not the last of the text. -/
theorem math_delimiters_agree_unclosed :
    '$' ∉ "\\a[b^ {c}".toList ∧ ¬ "\\verb".toList <:+: "\\a[b^ {c}".toList ∧
      parse "\\(\\a[b^ {c}\\)" = .ok (.list [.inlineMath [.command "a" none, .string "[",
        .string "b", .script .sup (some (.group [.string "c"]))]]) ∧
      parse "$\\a[b^ {c}$" = .ok (.list [.inlineMath [.command "a" none, .string "[",
        .string "b", .script .sup (some (.group [.string "c"]))]]) ∧
      parse "\\[\\a[b^ {c}\\]" = .ok (.list [.displayMath [.command "a" none, .string "[",
        .string "b", .script .sup (some (.group [.string "c"]))]]) ∧
      parse "$$\\a[b^ {c}$$" = .ok (.list [.displayMath [.command "a" none, .string "[",
        .string "b", .script .sup (some (.group [.string "c"]))]]) := by
  have hdollar : '$' ∉ "\\a[b^ {c}".toList := by decide
  have hverb : ¬ "\\verb".toList <:+: "\\a[b^ {c}".toList := by decide
  have hinline : parse "\\(\\a[b^ {c}\\)" = .ok (.list [.inlineMath [.command "a" none,
      .string "[", .string "b", .script .sup (some (.group [.string "c"]))]]) := by
    unfold parse readDocument
    rw [readDocumentBy_cached]
    rfl
  have hdisplay : parse "\\[\\a[b^ {c}\\]" = .ok (.list [.displayMath [.command "a" none,
      .string "[", .string "b", .script .sup (some (.group [.string "c"]))]]) := by
    unfold parse readDocument
    rw [readDocumentBy_cached]
    rfl
  obtain ⟨hdollars, hdoubled⟩ := math_delimiters_agree "\\a[b^ {c}" hdollar hverb
  exact ⟨hdollar, hverb, hinline, hdollars _ hinline, hdisplay, hdoubled _ hdisplay⟩

end LatexFormatter
