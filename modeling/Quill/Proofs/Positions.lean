import Quill.Proofs.Grammar.Parts
import Quill.Proofs.Token.Place

/-!
# Positions and lines agree

Main statement: `positions_exact`. Tokens say where they stand, and the lines of the source file
have their first characters at these places. Errors, of the tokens or of the grammar, lie on a line
of the source file, too.
-/

namespace Quill

namespace Token

theorem scanNumber_error {text : List Char} {f : Failure} (h : scanNumber text = .error f) :
    f.before = [] := by
  unfold scanNumber at h
  split at h
  · dsimp only at h
    split at h
    · cases h
    · cases h
      rfl
  · cases h

theorem scanString_error {text : List Char} {q : Quotation} {f : Failure}
    (h : scanString text q = .error f) : f.before <+: text := by
  cases q with
  | closed value n => cases h
  | unterminated n =>
    cases h
    exact List.nil_prefix
  | invalidEscape n e =>
    cases h
    exact List.take_prefix _ _

theorem scanMark_error {c : Char} {text : List Char} {f : Failure}
    (h : scanMark c text = .error f) : f.before = [] := by
  unfold scanMark at h
  split at h
  · cases h
  · cases h
    rfl

theorem scan_error {c : Char} {rest : List Char} {f : Failure} (h : scan c rest = .error f) :
    f.before <+: c :: rest := by
  have nothing (hf : f.before = []) : f.before <+: c :: rest := hf ▸ List.nil_prefix
  have choice {p : Prop} [Decidable p] {x y : Except Failure Scanned}
      (hx : x = .error f → f.before <+: c :: rest) (hy : y = .error f → f.before <+: c :: rest) :
      (if p then x else y) = .error f → f.before <+: c :: rest := by
    by_cases hp : p
    · rwa [if_pos hp]
    · rwa [if_neg hp]
  have nameless : (.error ⟨.namelessAttribute, [], ['@']⟩ : Except Failure Scanned) = .error f →
      f.before <+: c :: rest := by
    rintro ⟨⟩
    exact List.nil_prefix
  revert h
  unfold scan
  -- The branches stand in the order of the choices of `scan`.
  refine choice nofun (choice nofun (choice nofun ?number))
  refine choice (fun h ↦ nothing (scanNumber_error h)) ?quoted
  refine choice scanString_error (choice scanString_error ?attr)
  refine choice (choice nofun nameless) ?symbol
  refine choice (choice nofun nofun) ?name
  exact choice nofun (choice nofun fun h ↦ nothing (scanMark_error h))

end Token

/-- The span starts on a line of the text. -/
def Span.Within (text : List Char) (s : Span) : Prop :=
  1 ≤ s.first.line ∧ s.first.line ≤ 1 + text.count '\n'

theorem Span.within_of_front {text front : List Char} {s : Span} (h : front <+: text)
    (hs : s.first = .following front) : s.Within text := by
  rw [Span.Within, hs]
  exact ⟨Nat.le_add_right 1 _, Position.line_following_le h⟩

theorem Span.origin_within (text : List Char) : Span.origin.Within text :=
  Span.within_of_front List.nil_prefix rfl

/-- Tokens of any kind on lines of the text. -/
def Grammar.Stock.within (text : List Char) : Stock where
  kind _ := True
  span := Span.Within text
  merge {a b} ha hb := by
    simp only [Span.Within, Span.merge, Position.min]
    split
    · exact hb
    · exact ha

namespace Token

/-- What a token says of its place in a text, when tokens that spell `front` stand before it. -/
structure IsExact (text front : List Char) (t : Token) : Prop where
  spelled : front ++ t.lexeme.toList <+: text
  first : t.span.first = .following front
  newline : t.kind = .newline → t.span.last = ⟨t.span.first.line + 1, 1⟩
  eof : t.kind = .eof → t.span.last = t.span.first
  last : t.kind ≠ .newline → t.kind ≠ .eof →
    ∃ inner c, t.lexeme.toList = inner ++ [c] ∧ t.span.last = .following (front ++ inner)
  visible : t.kind ≠ .whitespace → t.kind ≠ .newline → t.kind ≠ .eof →
    ∃ c more, t.lexeme.toList = c :: more ∧ c ≠ '\n' ∧ c ≠ '\r'

theorem IsScanned.isExact {text front : List Char} {t : Token}
    (h : IsScanned (Position.start.after front) t) (ht : front ++ t.lexeme.toList <+: text) :
    t.IsExact text front := by
  have hp := h.isPlaced
  refine ⟨ht, ?_, fun hk ↦ ?_, fun hk ↦ absurd hk h.kind_ne_eof, fun hk _ ↦ ?_,
    fun hw hk _ ↦ hp.visible hw hk⟩
  · rw [hp.first, Position.start_after]
  · rw [hp.newline hk, hp.first]
  · obtain ⟨inner, c, hl, hlast⟩ := hp.last hk
    exact ⟨inner, c, hl, by rw [hlast, ← Position.after_append, Position.start_after]⟩

theorem endAt_isExact {text front : List Char} (h : front <+: text) :
    (endAt (Position.start.after front)).IsExact text front where
  spelled := by rwa [endAt, String.toList_empty, List.append_nil]
  first := Position.start_after front
  newline hk := nomatch hk
  eof _ := rfl
  last _ hk := absurd rfl hk
  visible _ _ hk := absurd rfl hk

theorem ofText_isExact (text : String) :
    (∀ before t after, (ofText text).tokens.toList = before ++ t :: after →
      t.IsExact text.toList (spelled before)) ∧
    ∀ e, (ofText text).error = some e → e.span.Within text.toList := by
  obtain ⟨ts, e, htext, hts⟩ := ofText_tokenizes text
  obtain ⟨tokens, rest, tail, rfl, hsplit, -, hremains, hscanned⟩ := hts.split
  rw [htext]
  have inside (before : List Token) (t : Token) (after : List Token)
      (h : tokens = before ++ t :: after) : t.IsExact text.toList (spelled before) := by
    refine (hscanned before t after h).isExact ?_
    rw [hsplit, h, spelled_append, spelled_cons, ← List.append_assoc, List.append_assoc]
    exact List.prefix_append _ _
  cases hremains with
  | stop _ =>
    refine ⟨fun before t after h ↦ ?_, nofun⟩
    rw [List.toList_toArray] at h
    obtain rfl | ⟨more, last, rfl⟩ := List.eq_nil_or_concat after
    · obtain ⟨rfl, rfl⟩ := List.append_singleton_inj.mp h
      exact endAt_isExact ⟨rest, hsplit.symm⟩
    · rw [List.concat_eq_append, ← List.cons_append, ← List.append_assoc] at h
      exact inside before t more (List.append_singleton_inj.mp h).1
  | @fail c more f hrest _ hf =>
    refine ⟨fun before t after h ↦ inside before t after (by simpa using h), ?_⟩
    rintro e ⟨⟩
    obtain ⟨back, hback⟩ := scan_error hf
    have hfront : spelled tokens ++ f.before <+: text.toList :=
      ⟨back, by rw [hsplit, hrest, List.append_assoc, hback]⟩
    exact Span.within_of_front hfront (by
      rw [← Position.start_after, Position.after_append]
      rfl)

end Token

/-- Every token says where its first and last characters stand in the text, by the number of line
feeds before them and of characters since the last of these. The line of the source file of that
number exists and has the first character of the token at that column. An error is on a line of the
source file. -/
theorem positions_exact (f : SourceFile) :
    (∀ before t after, (Token.ofText f.content).tokens.toList = before ++ t :: after →
      t.IsExact f.content.toList (Token.spelled before) ∧
      ∃ line, f.line? t.span.first.line = some line ∧
        (t.kind ≠ .whitespace → t.kind ≠ .newline → t.kind ≠ .eof →
          ∃ c, t.lexeme.toList.head? = some c ∧
            line.toList[t.span.first.column - 1]? = some c)) ∧
    ∀ e, Program.ofText? f.content = .error e → (f.line? e.span.first.line).isSome = true := by
  obtain ⟨htokens, herror⟩ := Token.ofText_isExact f.content
  have onLine {s : Span} (hs : s.Within f.content.toList) : (f.line? s.first.line).isSome = true :=
    SourceFile.isSome_line? hs.1 hs.2
  have within {before : List Token} {t : Token} (ht : t.IsExact f.content.toList
      (Token.spelled before)) : t.span.Within f.content.toList :=
    Span.within_of_front ((List.prefix_append _ _).trans ht.spelled) ht.first
  refine ⟨fun before t after h ↦ ?_, fun e he ↦ ?_⟩
  · have ht := htokens before t after h
    refine ⟨ht, ?_⟩
    by_cases hk : t.kind ≠ .whitespace ∧ t.kind ≠ .newline ∧ t.kind ≠ .eof
    · obtain ⟨c, more, hl, hc, hr⟩ := ht.visible hk.1 hk.2.1 hk.2.2
      obtain ⟨rest, hrest⟩ := ht.spelled
      rw [hl, List.append_assoc, List.cons_append] at hrest
      obtain ⟨line, hline, hcolumn⟩ := SourceFile.line?_following hrest.symm hc hr
      rw [ht.first]
      exact ⟨line, hline, fun _ _ _ ↦ ⟨c, by rw [hl]; rfl, hcolumn⟩⟩
    · obtain ⟨line, hline⟩ := Option.isSome_iff_exists.mp (onLine (within ht))
      exact ⟨line, hline, fun hw hn he ↦ absurd ⟨hw, hn, he⟩ hk⟩
  · apply onLine
    unfold Program.ofText? Token.ofText? at he
    generalize Token.ofText f.content = stream at htokens herror he
    -- The text has an error where no token is found, or else where its tokens are no program.
    obtain ⟨⟨tokens⟩, error⟩ := stream
    cases error with
    | some e' =>
      cases he
      exact herror e' rfl
    | none =>
      dsimp only at he
      split at he
      · cases he
      · rename_i e' hp
        cases he
        have herror := Grammar.ofTokens?_keeps (.within f.content.toList) (Span.origin_within _)
          fun t ht ↦ by
            obtain ⟨before, after, hsplit⟩ := List.append_of_mem ht
            exact ⟨trivial, within (htokens before t after hsplit)⟩
        rwa [hp] at herror

end Quill
