import LatexFormatter.Proofs.Grammar.Unclosed

/-
  What is suggested about an environment that is not closed. The name of the
  environment travels from the text into a tag, in quotes into the report, and out of
  the quotes into a sentence; it is cut out there as it stands between the quotes, so a
  name that cannot be quoted as it is comes out changed (`suggestion_names_environment`).

  Which of two sentences it is depends only on whether a character was found. That
  the environment is closed by another end is said wherever its body comes to a halt
  before the end of the text, be it at a stray brace or dollar sign.
-/

namespace LatexFormatter

/-! ## The sentences -/

/-- The environment meets the end of another one. -/
def closedByAnother (name : String) : String :=
  s!"environment '{name}' is closed by a different \\end; use \\end\x7b{name}\x7d"

/-- The environment meets the end of the text. -/
def neverClosed (name : String) : String :=
  s!"environment '{name}' is never closed; add \\end\x7b{name}\x7d"

/-- A name in a sentence, twice, with the same text before, a text between and the
same behind. -/
def sentence (middle name : List Char) : List Char :=
  "environment '".toList ++ (name ++ (middle ++ (name ++ ['}'])))

theorem toList_closedByAnother (name : String) :
    (closedByAnother name).toList
      = sentence "' is closed by a different \\end; use \\end\x7b".toList name.toList := by
  have happend : closedByAnother name = "environment '" ++ name
      ++ "' is closed by a different \\end; use \\end\x7b" ++ name ++ "\x7d" := rfl
  rw [happend, String.toList_append, String.toList_append, String.toList_append,
    String.toList_append, List.append_assoc, List.append_assoc, List.append_assoc]
  rfl

theorem toList_neverClosed (name : String) :
    (neverClosed name).toList = sentence "' is never closed; add \\end\x7b".toList name.toList := by
  have happend : neverClosed name = "environment '" ++ name
      ++ "' is never closed; add \\end\x7b" ++ name ++ "\x7d" := rfl
  rw [happend, String.toList_append, String.toList_append, String.toList_append,
    String.toList_append, List.append_assoc, List.append_assoc, List.append_assoc]
  rfl

/-- A sentence tells which name it was made of. -/
theorem sentence_inj {middle a b : List Char} (h : sentence middle a = sentence middle b) :
    a = b := by
  have hrest := List.append_cancel_left h
  have hlength := congrArg List.length hrest
  simp only [List.length_append, List.length_cons] at hlength
  exact List.append_inj_left hrest (by omega)

theorem closedByAnother_inj {a b : String} (h : closedByAnother a = closedByAnother b) : a = b := by
  have hlist := congrArg String.toList h
  rw [toList_closedByAnother, toList_closedByAnother] at hlist
  exact String.toList_inj.1 (sentence_inj hlist)

theorem neverClosed_inj {a b : String} (h : neverClosed a = neverClosed b) : a = b := by
  have hlist := congrArg String.toList h
  rw [toList_neverClosed, toList_neverClosed] at hlist
  exact String.toList_inj.1 (sentence_inj hlist)

/-- No name makes one sentence out of the other. -/
theorem closedByAnother_ne_neverClosed (a b : String) : closedByAnother a ≠ neverClosed b := by
  intro h
  have hlist := congrArg String.toList h
  rw [toList_closedByAnother, toList_neverClosed] at hlist
  have hrest := List.append_cancel_left hlist
  have hlength := congrArg List.length hrest
  simp only [List.length_append, List.length_cons, List.length_nil] at hlength
  have hlong : "' is closed by a different \\end; use \\end\x7b".toList.length = 42 := by decide
  have hshort : "' is never closed; add \\end\x7b".toList.length = 28 := by decide
  -- the second name has seven characters more, and ends inside a word of the first sentence
  have hb : b.toList.length = a.toList.length + 7 := by omega
  have hchar := congrArg (fun cs => cs[a.toList.length + 7]?) hrest
  rw [List.getElem?_append_right (by omega), ← hb, List.getElem?_append_right (Nat.le_refl _),
    hb, Nat.add_sub_cancel_left, Nat.sub_self, List.getElem?_append_left (by omega),
    List.getElem?_append_left (by omega)] at hchar
  exact absurd hchar (by decide)

/-! ## Quoted names -/

theorem quotedChar_cases (c : Char) :
    Text.quotedChar c = [c] ∨ ∃ more, Text.quotedChar c = '\\' :: more := by
  unfold Text.quotedChar
  split
  · exact Or.inr ⟨_, rfl⟩
  · exact Or.inr ⟨_, rfl⟩
  · exact Or.inr ⟨_, rfl⟩
  · exact Or.inr ⟨_, rfl⟩
  · exact Or.inr ⟨_, rfl⟩
  · exact Or.inr ⟨_, rfl⟩
  · split
    · exact Or.inr ⟨_, rfl⟩
    · exact Or.inl rfl

/-- A name that needs no backslash in quotes stands there as it is. -/
theorem quoted_eq_self {name : List Char} (h : '\\' ∉ name.flatMap Text.quotedChar) :
    name.flatMap Text.quotedChar = name := by
  induction name with
  | nil => rfl
  | cons c cs ih =>
    rw [List.flatMap_cons, List.mem_append, not_or] at h
    rw [List.flatMap_cons, ih h.2]
    rcases quotedChar_cases c with hc | ⟨more, hc⟩
    · rw [hc]
      rfl
    · rw [hc] at h
      exact absurd (List.mem_cons_self ..) h.1

theorem quotedChars_endTag (name : List Char) :
    Text.quotedChars (endTag name)
      = ['"', '\\', '\\', 'e', 'n', 'd', '{'] ++ (name.flatMap Text.quotedChar ++ ['}', '"']) := by
  have hopening : ['\\', 'e', 'n', 'd', '{'].flatMap Text.quotedChar
      = ['\\', '\\', 'e', 'n', 'd', '{'] := by decide
  have hclosing : ['}'].flatMap Text.quotedChar = ['}'] := by decide
  rw [Text.quotedChars, endTag, List.flatMap_append, List.flatMap_append, hopening, hclosing]
  simp

/-- What is cut out of a quoted end tag is the name as it stands in quotes. -/
theorem between?_endTag (name : List Char) :
    Diagnostic.between? ['"', '\\', '\\', 'e', 'n', 'd', '{'] ['}', '"']
      (Text.quotedChars (endTag name)) = some (name.flatMap Text.quotedChar) := by
  have hprefix : ['"', '\\', '\\', 'e', 'n', 'd', '{'].isPrefixOf
      (Text.quotedChars (endTag name)) = true := by
    rw [quotedChars_endTag]
    exact List.isPrefixOf_iff_prefix.2 (List.prefix_append _ _)
  have hrest : (Text.quotedChars (endTag name)).drop 7
      = name.flatMap Text.quotedChar ++ ['}', '"'] := by
    rw [quotedChars_endTag]
    rfl
  have hsuffix : ['}', '"'].isSuffixOf (name.flatMap Text.quotedChar ++ ['}', '"']) = true :=
    List.isSuffixOf_iff_suffix.2 (List.suffix_append _ _)
  rw [Diagnostic.between?, if_pos hprefix]
  simp only [List.length_cons, List.length_nil, Nat.zero_add, Nat.reduceAdd, hrest, hsuffix,
    if_true]
  rw [List.length_append]
  simp

theorem isEndTag_of_between? {alternative : String} {name : List Char}
    (h : Diagnostic.between? ['"', '\\', '\\', 'e', 'n', 'd', '{'] ['}', '"'] alternative.toList
      = some name) : SyntaxError.isEndTag alternative = true := by
  unfold Diagnostic.between? at h
  split at h
  · next hprefix => exact hprefix
  · cases h

/-! ## What is suggested -/

/-- Only the two sentences begin as they do. -/
theorem suggestion?_cases {error : SyntaxError} {help : String}
    (h : Diagnostic.suggestion? error = some help) :
    (∃ name, Diagnostic.expectedEnd? error = some name ∧
      help = if error.found = none then neverClosed name else closedByAnother name) ∨
      help.toList.head? ≠ some 'e' := by
  unfold Diagnostic.suggestion? at h
  split at h
  · obtain ⟨name, hname, rfl⟩ := Option.map_eq_some_iff.1 h
    refine Or.inl ⟨name, hname, ?_⟩
    cases error.found with
    | none => rfl
    | some found => rfl
  · refine Or.inr ?_
    split at h
    · next closing _ =>
      cases h
      have happend : s!"math is never closed; add {closing}"
          = "math is never closed; add " ++ closing := rfl
      rw [happend, String.toList_append]
      intro hhead
      cases hhead
    · split at h
      · cases h
        decide
      · split at h
        · cases h
          decide
        · cases h

theorem head?_closedByAnother (name : String) :
    (closedByAnother name).toList.head? = some 'e' := by
  rw [toList_closedByAnother]
  rfl

theorem head?_neverClosed (name : String) : (neverClosed name).toList.head? = some 'e' := by
  rw [toList_neverClosed]
  rfl

/-- The place with that many bytes before it has the rest of the text ahead. -/
theorem Cursor.Within.rest_eq {source before after : List Char} {here : Cursor}
    (hh : here.Within source) (hsource : source = before ++ after)
    (hoffset : here.offset = utf8Length before) : here.rest = after := by
  have hthere : (Cursor.start source).skip before.length = here := by
    apply Cursor.Within.eq_of_offset ⟨_, rfl⟩ hh
    rw [hoffset]
    simp [Cursor.skip, Cursor.start, hsource]
  rw [← hthere]
  simp [Cursor.start, hsource]

/-- A suggestion about an environment is about one that was opened in the text and is
not closed at the place of the error, and says that it is never closed where that
place is the end of the text. -/
theorem unclosed_of_suggestion {text : String} {error : SyntaxError} {help : String}
    (hread : readDocument text = .error error) (hhelp : Diagnostic.suggestion? error = some help)
    (hhead : help.toList.head? = some 'e') :
    ∃ name before after, beginTag name <:+: text.toList ∧ text.toList = before ++ after ∧
      error.location.offset = utf8Length before ∧ ¬ endTag name <+: after ∧
      (after = [] ∧ help = neverClosed (String.ofList (name.flatMap Text.quotedChar)) ∨
        Halts (isMathEnvironment (String.ofList name)) after ∧
          help = closedByAnother (String.ofList (name.flatMap Text.quotedChar))) := by
  obtain ⟨shown, hshown, hsentence⟩ | hother := suggestion?_cases hhelp
  · obtain ⟨cs, hcs, rfl⟩ := Option.map_eq_some_iff.1 hshown
    obtain ⟨alternative, hmem, hbetween⟩ := List.exists_of_findSome?_eq_some hcs
    obtain ⟨name, here, hunclosed, hoffset, rfl⟩ :=
      missing_of_error hread alternative hmem (isEndTag_of_between? hbetween)
    obtain rfl : name.flatMap Text.quotedChar = cs := by
      rw [String.toList_ofList, between?_endTag] at hbetween
      exact Option.some.inj hbetween
    obtain ⟨stop, items, notes, -, -, -, -, hboundary, rfl⟩ := exists_notes hread
    obtain ⟨before, after, front, line, back, hlocated, hfound, -⟩ :=
      exists_located_report hboundary
    have hrest := hunclosed.within.rest_eq hlocated.text (hoffset.trans hlocated.offset)
    refine ⟨name, before, after, hunclosed.opened, hlocated.text, hlocated.offset, ?_, ?_⟩
    · intro hprefix
      have hsees := hunclosed.unseen
      rw [Cursor.sees, hrest, List.isPrefixOf_iff_prefix.2 hprefix] at hsees
      cases hsees
    · rw [hfound] at hsentence
      cases after with
      | nil => exact Or.inl ⟨rfl, hsentence⟩
      | cons c more =>
        refine Or.inr ⟨?_, hsentence⟩
        rcases hunclosed.halts with hend | hhalts
        · rw [hrest] at hend
          cases hend
        · rwa [hrest] at hhalts
  · exact absurd hhead hother

/-- The name that a sentence shows is that of the environment which is not closed, as
it stands in quotes. -/
theorem unclosed_of_sentence {text : String} {error : SyntaxError} {help shown : String}
    (hread : readDocument text = .error error) (hhelp : Diagnostic.suggestion? error = some help)
    (hshown : help = closedByAnother shown ∨ help = neverClosed shown) :
    ∃ name before after, shown.toList = name.flatMap Text.quotedChar ∧
      beginTag name <:+: text.toList ∧ text.toList = before ++ after ∧
      error.location.offset = utf8Length before ∧ ¬ endTag name <+: after ∧
      (after = [] ∧ help = neverClosed shown ∨
        Halts (isMathEnvironment (String.ofList name)) after ∧ help = closedByAnother shown) := by
  have hhead : help.toList.head? = some 'e' := by
    rcases hshown with rfl | rfl
    · exact head?_closedByAnother shown
    · exact head?_neverClosed shown
  obtain ⟨name, before, after, hopened, hsource, hoffset, hunseen, hend⟩ :=
    unclosed_of_suggestion hread hhelp hhead
  obtain rfl : String.ofList (name.flatMap Text.quotedChar) = shown := by
    rcases hend with ⟨-, rfl⟩ | ⟨-, rfl⟩ <;> rcases hshown with hshown | hshown
    · exact absurd hshown.symm (closedByAnother_ne_neverClosed _ _)
    · exact neverClosed_inj hshown
    · exact closedByAnother_inj hshown
    · exact absurd hshown (closedByAnother_ne_neverClosed _ _)
  exact ⟨name, before, after, String.toList_ofList, hopened, hsource, hoffset, hunseen, hend⟩

/-- **What is suggested about an environment.** For every text that cannot be read and
every name that the suggestion speaks of, the name is that of an environment which
was opened in the text, as it stands in quotes; so if it has no backslash, it is
the very name. Where the environment is said to be closed by another end, the text at
the place of the error does not go on with its own end, and no token begins there: it
goes on with a closing brace, with the command that closes environments, or, in a math
environment, with a dollar sign. Where it is said never to be closed, that place is the
end of the text. -/
theorem suggestion_names_environment {text : String} {error : SyntaxError}
    (h : parse text = .error (.outsideGrammar error)) (shown : String) :
    ((Diagnostic.ofSyntaxError error text).help = some (closedByAnother shown) →
      ∃ name before after, shown.toList = name.flatMap Text.quotedChar ∧
        beginTag name <:+: text.toList ∧ text.toList = before ++ after ∧
        error.location.offset = utf8Length before ∧ ¬ endTag name <+: after ∧
        Halts (isMathEnvironment (String.ofList name)) after) ∧
    ((Diagnostic.ofSyntaxError error text).help = some (neverClosed shown) →
      ∃ name, shown.toList = name.flatMap Text.quotedChar ∧ beginTag name <:+: text.toList ∧
        error.location.offset = utf8Length text.toList) ∧
    ((Diagnostic.ofSyntaxError error text).help = some (closedByAnother shown) ∨
        (Diagnostic.ofSyntaxError error text).help = some (neverClosed shown) →
      '\\' ∉ shown.toList → beginTag shown.toList <:+: text.toList) := by
  have hread : readDocument text = .error error := by
    obtain ⟨other, hread, hparse⟩ | ⟨tree, nodes, -, -, hparse, -⟩ := parse_derives text
    · rw [hparse] at h
      cases h
      exact hread
    · rw [hparse] at h
      cases h
  refine ⟨?_, ?_, ?_⟩
  · intro hhelp
    obtain ⟨name, before, after, hname, hopened, hsource, hoffset, hunseen, ⟨-, hother⟩ |
      ⟨hhalts, -⟩⟩ := unclosed_of_sentence hread hhelp (Or.inl rfl)
    · exact absurd hother (closedByAnother_ne_neverClosed _ _)
    · exact ⟨name, before, after, hname, hopened, hsource, hoffset, hunseen, hhalts⟩
  · intro hhelp
    obtain ⟨name, before, after, hname, hopened, hsource, hoffset, -, ⟨rfl, -⟩ |
      ⟨-, hother⟩⟩ := unclosed_of_sentence hread hhelp (Or.inr rfl)
    · rw [List.append_nil] at hsource
      exact ⟨name, hname, hopened, hsource ▸ hoffset⟩
    · exact absurd hother.symm (closedByAnother_ne_neverClosed _ _)
  · intro hhelp hbackslash
    obtain ⟨name, hname, hopened⟩ : ∃ name, shown.toList = name.flatMap Text.quotedChar ∧
        beginTag name <:+: text.toList := by
      rcases hhelp with hhelp | hhelp
      · obtain ⟨name, _, _, hname, hopened, -⟩ := unclosed_of_sentence hread hhelp (Or.inl rfl)
        exact ⟨name, hname, hopened⟩
      · obtain ⟨name, _, _, hname, hopened, -⟩ := unclosed_of_sentence hread hhelp (Or.inr rfl)
        exact ⟨name, hname, hopened⟩
    rw [hname] at hbackslash ⊢
    rwa [quoted_eq_self hbackslash]

theorem suggestion_names_environment_closed_by_bar :
    let error : SyntaxError :=
      { expected := ["\"\\\\end\x7bfoo\x7d\"", "text"], found := some "\\"
        location := ⟨12, 1, 13⟩ }
    parse "\\begin\x7bfoo\x7dx\\end\x7bbar\x7d" = .error (.outsideGrammar error) ∧
      (Diagnostic.ofSyntaxError error "\\begin\x7bfoo\x7dx\\end\x7bbar\x7d").help
        = some (closedByAnother "foo") ∧
      beginTag "foo".toList <:+: "\\begin\x7bfoo\x7dx\\end\x7bbar\x7d".toList ∧
      ∃ name before after, "foo".toList = name.flatMap Text.quotedChar ∧
        "\\begin\x7bfoo\x7dx\\end\x7bbar\x7d".toList = before ++ after ∧
        error.location.offset = utf8Length before ∧ ¬ endTag name <+: after ∧
        Halts (isMathEnvironment (String.ofList name)) after := by
  intro error
  have hparse : parse "\\begin\x7bfoo\x7dx\\end\x7bbar\x7d" = .error (.outsideGrammar error) := by
    unfold parse readDocument
    rw [readDocumentBy_cached]
    rfl
  have hhelp : (Diagnostic.ofSyntaxError error "\\begin\x7bfoo\x7dx\\end\x7bbar\x7d").help
      = some (closedByAnother "foo") := rfl
  obtain ⟨hclosed, -, hopened⟩ := suggestion_names_environment hparse "foo"
  obtain ⟨name, before, after, hname, -, hrest⟩ := hclosed hhelp
  exact ⟨hparse, hhelp, hopened (Or.inl hhelp) (by decide), name, before, after, hname, hrest⟩

/-- A name with a quotation mark comes out changed, and a stray brace passes for the end
of another environment. -/
theorem suggestion_misnames_environment :
    let quotation : SyntaxError :=
      { expected := ["\"\\\\end\x7ba\\\"b\x7d\""], found := none, location := ⟨12, 1, 13⟩ }
    let brace : SyntaxError :=
      { expected := ["\"\\\\end\x7bfoo\x7d\"", "text"], found := some "\x7d"
        location := ⟨12, 1, 13⟩ }
    (parse "\\begin\x7ba\"b\x7dx" = .error (.outsideGrammar quotation) ∧
      (Diagnostic.ofSyntaxError quotation "\\begin\x7ba\"b\x7dx").help
        = some (neverClosed "a\\\"b") ∧
      ¬ beginTag "a\\\"b".toList <:+: "\\begin\x7ba\"b\x7dx".toList) ∧
    (parse "\\begin\x7bfoo\x7dx\x7d" = .error (.outsideGrammar brace) ∧
      (Diagnostic.ofSyntaxError brace "\\begin\x7bfoo\x7dx\x7d").help
        = some (closedByAnother "foo") ∧
      ∀ before after, "\\begin\x7bfoo\x7dx\x7d".toList = before ++ after →
        utf8Length before = brace.location.offset → ¬ ['\\', 'e', 'n', 'd'] <+: after) := by
  intro quotation brace
  refine ⟨⟨?_, rfl, by decide⟩, ?_, rfl, ?_⟩
  · unfold parse readDocument
    rw [readDocumentBy_cached]
    rfl
  · unfold parse readDocument
    rw [readDocumentBy_cached]
    rfl
  · intro before after hsplit hlength hend
    -- only the brace lies behind that many bytes, and the four characters do not fit there
    obtain ⟨more, rfl⟩ := hend
    have htotal := congrArg utf8Length hsplit
    rw [utf8Length_append, hlength, utf8Length_append] at htotal
    have hwhole : utf8Length "\\begin\x7bfoo\x7dx\x7d".toList = 13 := by decide
    have hfour : utf8Length ['\\', 'e', 'n', 'd'] = 4 := by decide
    have hplace : brace.location.offset = 12 := rfl
    omega

end LatexFormatter
