import DispatchLisp.Proofs.Reader.Grammar

/-!
# Proofs.Reader.Tokens — strings and names, and what the reader makes of their characters

The inside of a string is found and decoded as the grammar has it. A name is a symbol's or a
keyword's when the reader takes all of it for one.
-/

namespace DispatchLisp

/-! ## Places -/

theorem Cursor.advance_append (o : Nat) (lexeme rest : List Char) :
    (Cursor.mk o (lexeme ++ rest)).advance lexeme.length = ⟨o + lexeme.length, rest⟩ := by
  simp [Cursor.advance]

/-! ## Strings -/

namespace StringLiteral

/-- A character is spelled by itself or by a backslash and a mark. -/
theorem encodeChar_cases (c : Char) :
    (encodeChar c = [c] ∧ c ≠ '\x5c' ∧ c ≠ '\x22') ∨
      ∃ mark, encodeChar c = ['\x5c', mark] ∧ named mark = c := by
  unfold encodeChar
  split
  case isTrue h => exact .inr ⟨'\x5c', rfl, h.symm⟩
  case isFalse hslash =>
    split
    case isTrue h => exact .inr ⟨'\x22', rfl, h.symm⟩
    case isFalse hquote =>
      split
      case isTrue h => exact .inr ⟨'n', rfl, h.symm⟩
      case isFalse =>
        split
        case isTrue h => exact .inr ⟨'t', rfl, h.symm⟩
        case isFalse =>
          split
          case isTrue h => exact .inr ⟨'r', rfl, h.symm⟩
          case isFalse => exact .inl ⟨rfl, hslash, hquote⟩

theorem bodyLength_plain {quote c : Char} (hquote : c ≠ quote) (hslash : c ≠ '\x5c')
    (first : Char) (rest : List Char) :
    bodyLength quote (c :: first :: rest) = (bodyLength quote (first :: rest)).map (· + 1) := by
  rw [bodyLength, if_neg hquote, if_neg hslash]

theorem bodyLength_escaped {quote : Char} (hquote : '\x5c' ≠ quote) (mark : Char)
    (rest : List Char) :
    bodyLength quote ('\x5c' :: mark :: rest) = (bodyLength quote rest).map (· + 2) := by
  rw [bodyLength, if_neg hquote, if_pos rfl]

theorem bodyLength_quote (quote : Char) (rest : List Char) :
    bodyLength quote (quote :: rest) = some 0 := by
  cases rest with
  | nil => exact if_pos rfl
  | cons c rest => exact if_pos rfl

theorem decode_plain {c : Char} (h : c ≠ '\x5c') (rest : List Char) :
    decode (c :: rest) = c :: decode rest := by
  rw [decode]
  intro mark others hc
  exact absurd hc h

end StringLiteral

namespace Grammar

open StringLiteral

theorem StringBody.decode_eq {quote : Char} {body text : List Char}
    (h : StringBody quote body text) : decode body = text := by
  induction h with
  | nil => rfl
  | plain _ hslash _ ih => rw [decode_plain hslash, ih]
  | escaped _ ih => rw [decode, ih]

theorem isQuote_ne_slash {quote : Char} (h : isQuote quote = true) : '\x5c' ≠ quote := by
  rintro rfl
  cases h

/-- The inside of a string ends at the quote behind it. -/
theorem StringBody.bodyLength_append {quote : Char} {body text : List Char}
    (h : StringBody quote body text) (hquote : isQuote quote = true) (rest : List Char) :
    bodyLength quote (body ++ quote :: rest) = some body.length := by
  induction h with
  | nil => exact bodyLength_quote quote rest
  | @plain c body text hplain hslash _ ih =>
      -- the scan of a plain character looks at the next one too, so that one is named first
      cases hnext : body ++ quote :: rest with
      | nil => exact absurd hnext (List.append_ne_nil_of_right_ne_nil _ (List.cons_ne_nil _ _))
      | cons first others =>
          rw [List.cons_append, hnext, bodyLength_plain hplain hslash, ← hnext, ih]
          rfl
  | @escaped c body text _ ih =>
      rw [List.cons_append, List.cons_append, bodyLength_escaped (isQuote_ne_slash hquote), ih]
      rfl

/-- What stands in front of the quote that ends a string is the inside of a string. -/
theorem stringBody_of_bodyLength {quote : Char} {text : List Char} {length : Nat}
    (h : bodyLength quote text = some length) :
    ∃ body rest value, text = body ++ quote :: rest ∧ body.length = length ∧
      StringBody quote body value := by
  induction text using bodyLength.induct quote generalizing length with
  | case1 => cases h
  | case2 =>
      rw [bodyLength, if_pos rfl] at h
      cases h
      exact ⟨[], [], [], rfl, rfl, .nil⟩
  | case3 c hc =>
      rw [bodyLength, if_neg hc] at h
      cases h
  -- the quote ends the inside; behind a backslash any character belongs to it
  | case4 d rest =>
      rw [bodyLength_quote] at h
      cases h
      exact ⟨[], d :: rest, [], rfl, rfl, .nil⟩
  | case5 d rest hquote ih =>
      rw [bodyLength_escaped hquote] at h
      obtain ⟨shorter, hshorter, rfl⟩ := Option.map_eq_some_iff.mp h
      obtain ⟨body, after, value, rfl, rfl, hbody⟩ := ih hshorter
      exact ⟨'\x5c' :: d :: body, after, named d :: value, rfl, rfl, .escaped hbody⟩
  | case6 c d rest hquote hslash ih =>
      rw [bodyLength_plain hquote hslash] at h
      obtain ⟨shorter, hshorter, rfl⟩ := Option.map_eq_some_iff.mp h
      obtain ⟨body, after, value, hsplit, rfl, hbody⟩ := ih hshorter
      refine ⟨c :: body, after, c :: value, ?_, rfl, .plain hquote hslash hbody⟩
      rw [hsplit]
      rfl

/-- The inside of the literal for a text stands for the text. -/
theorem stringBody_encode (text : List Char) : StringBody '\x22' (encode text) text := by
  induction text with
  | nil => exact .nil
  | cons c text ih =>
      have hencode : encode (c :: text) = encodeChar c ++ encode text := List.flatMap_cons
      rw [hencode]
      rcases encodeChar_cases c with ⟨hc, hslash, hquote⟩ | ⟨mark, hc, hmark⟩
      · rw [hc]
        exact .plain hquote hslash ih
      · rw [hc, ← hmark]
        exact .escaped ih

end Grammar

/-! ## Names -/

/-- Whether the reader takes a text for a symbol, all of it. -/
structure IsSymbolName (name : List Char) : Prop where
  lexeme : symbolLexeme? name = some name
  notNumber : startsNumber name = false
  notKeyword : name.head? ≠ some ':'

/-- Whether the reader takes a text for the name of a keyword, all of it. -/
def IsKeywordName (name : List Char) : Prop :=
  keywordLexeme? (':' :: name) = some (':' :: name)

instance (name : List Char) : Decidable (IsKeywordName name) :=
  inferInstanceAs (Decidable (_ = _))

instance (name : List Char) : Decidable (IsSymbolName name) :=
  decidable_of_iff (symbolLexeme? name = some name ∧ startsNumber name = false ∧
    name.head? ≠ some ':') ⟨fun h => ⟨h.1, h.2.1, h.2.2⟩, fun h => ⟨h.1, h.2, h.3⟩⟩

theorem symbolLexeme?_eq_some {text lexeme : List Char} (h : symbolLexeme? text = some lexeme) :
    ∃ c rest, text = c :: rest ∧ isNameStart c = true ∧ lexeme = c :: rest.takeWhile isNameChar := by
  cases text with
  | nil => cases h
  | cons c rest =>
      rw [symbolLexeme?] at h
      split at h
      case isTrue hstart =>
        cases h
        exact ⟨c, rest, rfl, hstart, rfl⟩
      case isFalse => cases h

theorem keywordLexeme?_eq_some {text lexeme : List Char} (h : keywordLexeme? text = some lexeme) :
    ∃ c rest, text = ':' :: c :: rest ∧ (isNameStart c && c != ':') = true ∧
      lexeme = ':' :: c :: rest.takeWhile isNameChar := by
  unfold keywordLexeme? at h
  split at h
  case h_1 c rest =>
    split at h
    case isTrue hstart =>
      cases h
      exact ⟨c, rest, rfl, hstart, rfl⟩
    case isFalse => cases h
  case h_2 => cases h

theorem startsNumber_cons {c : Char} (h : c ≠ '-') (rest : List Char) :
    startsNumber (c :: rest) = isDigit c := by
  rw [startsNumber]
  intro d others hc
  exact absurd hc h

/-- What ends a token does not make it a number. -/
theorem startsNumber_append {name rest : List Char} (hne : name ≠ []) (hrest : TokenEnd rest) :
    startsNumber (name ++ rest) = startsNumber name := by
  -- only a lone minus sign is decided by what stands behind the name
  rcases name with _ | ⟨c, _ | ⟨d, others⟩⟩
  · exact absurd rfl hne
  · by_cases hminus : c = '-'
    · subst hminus
      cases rest with
      | nil => rfl
      | cons d rest => exact isDigit_of_endsToken hrest
    · rw [List.cons_append, startsNumber_cons hminus, startsNumber_cons hminus]
  · by_cases hminus : c = '-'
    · subst hminus
      rfl
    · rw [List.cons_append, startsNumber_cons hminus, startsNumber_cons hminus]

/-- A text that does not start like a number has nothing at its front that does. -/
theorem startsNumber_of_append {name rest : List Char} (h : startsNumber (name ++ rest) = false) :
    startsNumber name = false := by
  rcases name with _ | ⟨c, _ | ⟨d, others⟩⟩
  · rfl
  · by_cases hminus : c = '-'
    · rw [hminus]
      decide
    · rw [List.cons_append, startsNumber_cons hminus] at h
      rw [startsNumber_cons hminus, h]
  · by_cases hminus : c = '-'
    · rw [hminus] at h ⊢
      exact h
    · rw [List.cons_append, startsNumber_cons hminus] at h
      rw [startsNumber_cons hminus, h]

end DispatchLisp
