import DispatchLisp.Proofs.Reader.Tokens

/-!
# Proofs.Reader.Lexemes — the reader takes the tokens of the grammar

Each scanner takes the longest text of its kind, and the first characters decide which scanner is
asked. So what is read as a token is a token (`Grammar.token_of_readToken`), and every token is
read (`Grammar.Token.readToken`).
-/

namespace DispatchLisp

namespace Grammar

/-! ## Names -/

theorem isNameChar_of_isNameStart {c : Char} (h : isNameStart c = true) : isNameChar c = true :=
  (Bool.and_eq_true_iff.mp h).1

theorem IsSymbol.isNameChar {lexeme : List Char} (h : IsSymbol lexeme) :
    ∀ c ∈ lexeme, isNameChar c = true := by
  obtain ⟨c, others, rfl, hstart, hothers⟩ := h
  intro d hd
  rcases List.mem_cons.mp hd with rfl | hd
  · exact isNameChar_of_isNameStart hstart
  · exact hothers d hd

theorem IsKeyword.isNameChar {lexeme : List Char} (h : IsKeyword lexeme) :
    ∀ c ∈ lexeme, isNameChar c = true := by
  obtain ⟨c, others, rfl, hstart, _, hothers⟩ := h
  intro d hd
  rcases List.mem_cons.mp hd with rfl | hd
  · decide
  · rcases List.mem_cons.mp hd with rfl | hd
    · exact isNameChar_of_isNameStart hstart
    · exact hothers d hd

theorem isNameChar_of_mem_takeWhile {text : List Char} :
    ∀ c ∈ text.takeWhile isNameChar, isNameChar c = true :=
  fun _ hc => List.mem_takeWhile_imp hc

/-- The scanner takes the longest symbol. -/
theorem takesLongest_symbol : TakesLongest IsSymbol symbolLexeme? where
  sound h := by
    obtain ⟨c, rest, rfl, hstart, rfl⟩ := symbolLexeme?_eq_some h
    refine ⟨⟨c, _, rfl, hstart, isNameChar_of_mem_takeWhile⟩, ?_⟩
    exact (List.prefix_cons_inj c).mpr (List.takeWhile_prefix _)
  complete hother hfront := by
    obtain ⟨c, others, rfl, hstart, hchars⟩ := hother
    obtain ⟨rest, rfl⟩ := hfront
    refine ⟨c :: (others ++ rest).takeWhile isNameChar, ?_, ?_⟩
    · rw [List.cons_append, symbolLexeme?, if_pos hstart]
    · exact Nat.succ_le_succ (length_le_takeWhile (List.prefix_append _ _) hchars)

/-- The scanner takes the longest keyword. -/
theorem takesLongest_keyword : TakesLongest IsKeyword keywordLexeme? where
  sound h := by
    obtain ⟨c, rest, rfl, hstart, rfl⟩ := keywordLexeme?_eq_some h
    rw [Bool.and_eq_true, bne_iff_ne] at hstart
    refine ⟨⟨c, _, rfl, hstart.1, hstart.2, isNameChar_of_mem_takeWhile⟩, ?_⟩
    exact (List.prefix_cons_inj ':').mpr ((List.prefix_cons_inj c).mpr (List.takeWhile_prefix _))
  complete hother hfront := by
    obtain ⟨c, others, rfl, hstart, hcolon, hchars⟩ := hother
    obtain ⟨rest, rfl⟩ := hfront
    have hfirst : (isNameStart c && c != ':') = true := by
      rw [Bool.and_eq_true, bne_iff_ne]
      exact ⟨hstart, hcolon⟩
    refine ⟨':' :: c :: (others ++ rest).takeWhile isNameChar, ?_, ?_⟩
    · rw [List.cons_append, List.cons_append, keywordLexeme?, if_pos hfirst]
    · exact Nat.succ_le_succ (Nat.succ_le_succ
        (length_le_takeWhile (List.prefix_append _ _) hchars))

theorem isSymbol_of_name {name : List Char} (h : IsSymbolName name) : IsSymbol name :=
  (takesLongest_symbol.sound h.lexeme).1

theorem isKeyword_of_name {name : List Char} (h : IsKeywordName name) : IsKeyword (':' :: name) :=
  (takesLongest_keyword.sound h).1

/-! ## Strings -/

/-- The string at the front of a text, with its quotes. -/
def stringLexeme? (text : List Char) : Option (List Char) :=
  (stringBody? text).map fun body => text.take (body.length + 2)

theorem stringBody?_append {quote : Char} {body text : List Char} (hquote : isQuote quote = true)
    (h : StringBody quote body text) (rest : List Char) :
    stringBody? (quote :: (body ++ quote :: rest)) = some body := by
  rw [stringBody?, if_pos hquote, h.bodyLength_append hquote, Option.map_some, List.take_left]

/-- The scanner finds the inside of a string only where one starts. -/
theorem stringBody?_sound {text body : List Char} (h : stringBody? text = some body) :
    ∃ quote rest value, isQuote quote = true ∧ text = quote :: (body ++ quote :: rest) ∧
      StringBody quote body value := by
  cases text with
  | nil => cases h
  | cons quote text =>
      rw [stringBody?] at h
      split at h
      case isFalse => cases h
      case isTrue hquote =>
        obtain ⟨length, hlength, hbody⟩ := Option.map_eq_some_iff.mp h
        obtain ⟨found, rest, value, rfl, rfl, hfound⟩ := stringBody_of_bodyLength hlength
        rw [List.take_left] at hbody
        subst hbody
        exact ⟨quote, rest, value, hquote, rfl, hfound⟩

theorem stringLexeme?_append {quote : Char} {body text : List Char} (hquote : isQuote quote = true)
    (h : StringBody quote body text) (rest : List Char) :
    stringLexeme? (quote :: (body ++ [quote]) ++ rest) = some (quote :: (body ++ [quote])) := by
  have hsplit : quote :: (body ++ [quote]) ++ rest = quote :: (body ++ quote :: rest) := by simp
  have hlength : (quote :: (body ++ [quote])).length = body.length + 2 := by simp
  rw [stringLexeme?, hsplit, stringBody?_append hquote h, Option.map_some, ← hsplit, ← hlength,
    List.take_left]

/-- The scanner takes the longest string, which is the only one at the front of a text. -/
theorem takesLongest_string : TakesLongest IsString stringLexeme? where
  sound := by
    intro text lexeme h
    obtain ⟨body, hbody, rfl⟩ := Option.map_eq_some_iff.mp h
    obtain ⟨quote, rest, value, hquote, rfl, hvalue⟩ := stringBody?_sound hbody
    have hscan := stringLexeme?_append hquote hvalue rest
    have hsplit : quote :: (body ++ [quote]) ++ rest = quote :: (body ++ quote :: rest) := by simp
    rw [hsplit, h, Option.some.injEq] at hscan
    refine ⟨?_, List.take_prefix _ _⟩
    rw [hscan]
    exact ⟨value, quote, body, hquote, rfl, hvalue⟩
  complete hother hfront := by
    obtain ⟨value, quote, body, hquote, rfl, hvalue⟩ := hother
    obtain ⟨rest, rfl⟩ := hfront
    exact ⟨_, stringLexeme?_append hquote hvalue rest, Nat.le_refl _⟩

/-! ## The first characters of tokens -/

theorem isQuote_cases {c : Char} (h : isQuote c = true) : c = '\x22' ∨ c = '\x27' := by
  rwa [isQuote, Bool.or_eq_true, beq_iff_eq, beq_iff_eq] at h

theorem isQuote_of_isNameStart {ch : Char} (h : isNameStart ch = true) : isQuote ch = false := by
  have hname := isNameChar_of_isNameStart h
  simp only [isNameChar, Bool.not_eq_true', Bool.or_eq_false_iff] at hname
  exact hname.1.2

theorem endsToken_of_isNameStart {ch : Char} (h : isNameStart ch = true) :
    endsToken ch = false := by
  apply Bool.eq_false_iff.mpr
  intro hend
  have hno := isNameChar_of_endsToken hend
  rw [isNameChar_of_isNameStart h] at hno
  cases hno

theorem isQuote_of_isDigit {c : Char} (h : isDigit c = true) : isQuote c = false := by
  by_contra hquote
  rcases isQuote_cases (Bool.of_not_eq_false hquote) with rfl | rfl
  · exact absurd h (by decide)
  · exact absurd h (by decide)

theorem startsNumber_cases {text : List Char} (h : startsNumber text = true) :
    ∃ c rest, text = c :: rest ∧ (c = '-' ∨ isDigit c = true) := by
  cases text with
  | nil => cases h
  | cons c rest =>
      refine ⟨c, rest, rfl, ?_⟩
      by_cases hminus : c = '-'
      · exact .inl hminus
      · rw [startsNumber_cons hminus] at h
        exact .inr h

/-- A token starts with a character that ends no token. -/
theorem Token.exists_first {text rest : List Char} {form : Form} (h : Token text form rest) :
    ∃ c others, text = c :: others ∧ endsToken c = false := by
  cases h with
  | string hlongest hvalue =>
      obtain ⟨quote, body, hquote, rfl, _⟩ := hvalue
      refine ⟨quote, _, hlongest.split.symm, ?_⟩
      rcases isQuote_cases hquote with rfl | rfl
      · decide
      · decide
  | number hstarts _ _ _ _ =>
      obtain ⟨c, others, htext, hc⟩ := startsNumber_cases hstarts
      refine ⟨c, others, htext, ?_⟩
      rcases hc with rfl | hdigit
      · decide
      · by_contra hend
        have hno := isDigit_of_endsToken (Bool.of_not_eq_false hend)
        rw [hdigit] at hno
        cases hno
  | keyword hlongest => exact ⟨':', _, hlongest.split.symm, by decide⟩
  | symbol _ _ hlongest =>
      obtain ⟨c, others, rfl, hstart, _⟩ := hlongest.isKind
      exact ⟨c, _, hlongest.split.symm, endsToken_of_isNameStart hstart⟩

/-! ## Reading a token -/

theorem advance_of_longest {kind : List Char → Prop} {text lexeme rest : List Char}
    (h : Longest kind text lexeme rest) (o : Nat) :
    (Cursor.mk o text).advance lexeme.length = ⟨o + lexeme.length, rest⟩ := by
  rw [← h.split]
  exact Cursor.advance_append o lexeme rest

theorem readString_of_longest {text lexeme rest value : List Char}
    (h : Longest IsString text lexeme rest) (hvalue : IsStringOf value lexeme) (o : Nat) :
    readString ⟨o, text⟩ = .ok (.string (String.ofList value), ⟨o + lexeme.length, rest⟩) := by
  obtain ⟨quote, body, hquote, rfl, hbody⟩ := hvalue
  have hscan : stringBody? text = some body := by
    have hsplit : text = quote :: (body ++ quote :: rest) := by
      rw [← h.split]
      simp
    rw [hsplit]
    exact stringBody?_append hquote hbody rest
  have hlength : body.length + 2 = (quote :: (body ++ [quote])).length := by simp
  simp only [readString, hscan, hbody.decode_eq, hlength, advance_of_longest h]

/-- A number starts like one when its first character other than a minus sign is a digit. -/
theorem startsNumber_text {n : NumberSpelling} (h : n.Valid) {c : Char} {others : List Char}
    (hwhole : n.whole = c :: others) (rest : List Char) :
    startsNumber (n.text ++ rest) = isDigit c := by
  have hminus : c ≠ '-' := by
    rintro rfl
    have hchar := h.isNumberChar '-' (hwhole ▸ List.mem_cons_self)
    exact absurd hchar (by decide)
  rw [NumberSpelling.text, NumberSpelling.signText, hwhole]
  split
  · rfl
  · exact startsNumber_cons hminus _

/-- A number that starts like one has digits. -/
theorem wholeDigits_ne_nil {n : NumberSpelling} {text rest : List Char}
    (hstarts : startsNumber text = true) (hvalid : n.Valid) (hsplit : n.text ++ rest = text) :
    n.wholeDigits ≠ [] := by
  cases hwhole : n.whole with
  | nil => exact absurd hwhole hvalid.nonempty
  | cons c others =>
      rw [← hsplit, startsNumber_text hvalid hwhole] at hstarts
      have hcomma : (c != ',') = true := by
        rw [bne_iff_ne]
        rintro rfl
        exact absurd hstarts (by decide)
      rw [NumberSpelling.wholeDigits, hwhole, List.filter_cons, if_pos hcomma]
      exact List.cons_ne_nil _ _

theorem numberLexeme?_of_longest {n : NumberSpelling} {text rest : List Char}
    (h : Longest IsNumber text n.text rest) (hvalid : n.Valid) :
    numberLexeme? text = some (n.fractional, n.text) := by
  obtain ⟨⟨fractional, lexeme⟩, hscan, hlexeme⟩ :=
    Option.map_eq_some_iff.mp (takesLongest_number.eq_some_iff.mpr ⟨rest, h⟩)
  obtain ⟨found, hfound, htext, hfractional, _⟩ := NumberSpelling.numberLexeme?_sound hscan
  -- two spellings of one text may differ in their parts, but not in whether there is a fraction
  have hsame : fractional = n.fractional := by
    rw [← hfractional, hfound.fractional_eq, hvalid.fractional_eq, htext, ← hlexeme]
  rw [hscan, hsame]
  exact congrArg (fun l => some (n.fractional, l)) hlexeme

theorem readNumber_of_longest {n : NumberSpelling} {text rest : List Char} {form : Form}
    (hstarts : startsNumber text = true) (h : Longest IsNumber text n.text rest) (hvalid : n.Valid)
    (hend : endsNumber rest = true) (hform : n.form? = some form) (o : Nat) :
    readNumber ⟨o, text⟩ = .ok (form, ⟨o + n.text.length, rest⟩) := by
  have hdigits := wholeDigits_ne_nil hstarts hvalid h.split
  simp only [readNumber, numberLexeme?_of_longest h hvalid, advance_of_longest h, hend, if_true,
    hvalid.numberForm?_text hdigits, hform]

/-- Every token is read, and no more than the token. -/
theorem Token.readToken {text rest : List Char} {form : Form} (h : Token text form rest) :
    ∃ lexeme, lexeme ≠ [] ∧ lexeme ++ rest = text ∧
      ∀ o, readToken ⟨o, text⟩ = .ok (form, ⟨o + lexeme.length, rest⟩) := by
  cases h with
  | @string lexeme _ value hlongest hvalue =>
      have hread := readString_of_longest hlongest hvalue
      obtain ⟨quote, body, hquote, rfl, _⟩ := hvalue
      refine ⟨_, List.cons_ne_nil _ _, hlongest.split, fun o => ?_⟩
      rw [← hread o, ← hlongest.split]
      simp only [DispatchLisp.readToken, List.cons_append, hquote, if_true]
  | @number _ n _ hstarts hlongest hvalid hend hform =>
      refine ⟨n.text, hvalid.text_ne_nil, hlongest.split, fun o => ?_⟩
      rw [← readNumber_of_longest hstarts hlongest hvalid hend hform o]
      obtain ⟨c, others, rfl, hc⟩ := startsNumber_cases hstarts
      -- the reader looks for a quote before it looks for a number
      have hquote : isQuote c = false := by
        rcases hc with rfl | hdigit
        · decide
        · exact isQuote_of_isDigit hdigit
      simp only [DispatchLisp.readToken, hquote, Bool.false_eq_true, if_false, hstarts, if_true]
  | @keyword name _ hlongest =>
      refine ⟨':' :: name, List.cons_ne_nil _ _, hlongest.split, fun o => ?_⟩
      have hscan := takesLongest_keyword.eq_some_iff.mpr ⟨rest, hlongest⟩
      have hread : readKeyword ⟨o, text⟩ =
          .ok (.keyword (String.ofList name), ⟨o + (':' :: name).length, rest⟩) := by
        simp only [readKeyword, hscan, advance_of_longest hlongest, List.drop_succ_cons,
          List.drop_zero]
      rw [← hread, ← hlongest.split]
      -- a colon is neither a quote nor the start of a number
      have hnumber : startsNumber (':' :: (name ++ rest)) = false := startsNumber_cons (by decide) _
      simp only [DispatchLisp.readToken, List.cons_append, hnumber, Bool.false_eq_true, if_false,
        if_true, (by decide : isQuote ':' = false)]
  | @symbol lexeme _ hnumber hcolon hlongest =>
      have hscan := takesLongest_symbol.eq_some_iff.mpr ⟨rest, hlongest⟩
      have hread : ∀ o, readSymbol ⟨o, text⟩ =
          .ok (.symbol (String.ofList lexeme), ⟨o + lexeme.length, rest⟩) := by
        intro o
        simp only [readSymbol, hscan, advance_of_longest hlongest]
      obtain ⟨c, others, rfl, hstart, _⟩ := hlongest.isKind
      refine ⟨c :: others, List.cons_ne_nil _ _, hlongest.split, fun o => ?_⟩
      rw [← hread o]
      have htext := hlongest.split
      rw [← htext] at hnumber hcolon ⊢
      rw [List.cons_append] at hnumber hcolon ⊢
      -- what starts a name is what is left when the other kinds have been ruled out
      have hc : c ≠ ':' := fun hc => hcolon (congrArg some hc)
      simp only [DispatchLisp.readToken, isQuote_of_isNameStart hstart, hnumber, hc,
        Bool.false_eq_true, if_false]

theorem token_of_readString {o : Nat} {text : List Char} {form : Form} {next : Cursor}
    (h : readString ⟨o, text⟩ = .ok (form, next)) : Token text form next.rest := by
  unfold readString at h
  split at h
  case h_2 => cases h
  case h_1 body hbody =>
    obtain ⟨quote, rest, value, hquote, hsplit, hvalue⟩ := stringBody?_sound hbody
    have hstring : IsStringOf value (quote :: (body ++ [quote])) := ⟨quote, body, hquote, rfl, hvalue⟩
    have hscan := stringLexeme?_append hquote hvalue rest
    have htext : quote :: (body ++ [quote]) ++ rest = text := by
      simp only at hsplit
      rw [hsplit]
      simp
    rw [htext] at hscan
    obtain ⟨after, hlongest⟩ := takesLongest_string.eq_some_iff.mp hscan
    have hlength : body.length + 2 = (quote :: (body ++ [quote])).length := by simp
    rw [hvalue.decode_eq, hlength, advance_of_longest hlongest] at h
    cases h
    exact .string hlongest hstring

theorem token_of_readNumber {o : Nat} {text : List Char} {form : Form} {next : Cursor}
    (hstarts : startsNumber text = true) (h : readNumber ⟨o, text⟩ = .ok (form, next)) :
    Token text form next.rest := by
  unfold readNumber at h
  split at h
  case h_1 => cases h
  case h_2 fractional lexeme hscan =>
    obtain ⟨n, hvalid, rfl, rfl, _⟩ := NumberSpelling.numberLexeme?_sound hscan
    obtain ⟨rest, hlongest⟩ :=
      takesLongest_number.eq_some_iff.mp (congrArg (Option.map Prod.snd) hscan)
    simp only [advance_of_longest hlongest,
      hvalid.numberForm?_text (wholeDigits_ne_nil hstarts hvalid hlongest.split)] at h
    split at h
    case isFalse => cases h
    case isTrue hend =>
      split at h
      case h_2 => cases h
      case h_1 found hform =>
        cases h
        exact .number hstarts hlongest hvalid hend hform

theorem token_of_readKeyword {o : Nat} {text : List Char} {form : Form} {next : Cursor}
    (h : readKeyword ⟨o, text⟩ = .ok (form, next)) : Token text form next.rest := by
  unfold readKeyword at h
  split at h
  case h_2 => cases h
  case h_1 lexeme hscan =>
    obtain ⟨rest, hlongest⟩ := takesLongest_keyword.eq_some_iff.mp hscan
    rw [advance_of_longest hlongest] at h
    cases h
    obtain ⟨c, others, rfl, _⟩ := hlongest.isKind
    exact .keyword hlongest

theorem token_of_readSymbol {o : Nat} {text : List Char} {form : Form} {next : Cursor}
    (hnumber : startsNumber text = false) (hcolon : text.head? ≠ some ':')
    (h : readSymbol ⟨o, text⟩ = .ok (form, next)) : Token text form next.rest := by
  unfold readSymbol at h
  split at h
  case h_2 => cases h
  case h_1 lexeme hscan =>
    obtain ⟨rest, hlongest⟩ := takesLongest_symbol.eq_some_iff.mp hscan
    rw [advance_of_longest hlongest] at h
    cases h
    exact .symbol hnumber hcolon hlongest

/-- What is read as a token is one. -/
theorem token_of_readToken {o : Nat} {text : List Char} {form : Form} {next : Cursor}
    (h : DispatchLisp.readToken ⟨o, text⟩ = .ok (form, next)) : Token text form next.rest := by
  rcases text with _ | ⟨ch, text⟩
  · cases h
  · rw [DispatchLisp.readToken] at h
    simp only at h
    split at h
    case isTrue => exact token_of_readString h
    case isFalse =>
      split at h
      case isTrue hnumber => exact token_of_readNumber hnumber h
      case isFalse hnumber =>
        split at h
        case isTrue => exact token_of_readKeyword h
        case isFalse hcolon =>
          have hfirst : (ch :: text).head? ≠ some ':' := fun hc => hcolon (Option.some.inj hc)
          exact token_of_readSymbol (Bool.of_not_eq_true hnumber) hfirst h

end Grammar

end DispatchLisp
