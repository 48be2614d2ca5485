import Mathlib.Data.List.Forall2
import Quill.Proofs.Outlines
import Quill.Proofs.SpanNesting
import Quill.Proofs.Spacing
import Quill.Proofs.Token.Returns

/-!
# Line endings

A text whose lines end in a carriage return and a line feed is the same program as with line feeds
alone, but its documentation keeps the carriage returns. Main statement:
`line_endings_reach_documentation`.
-/

namespace Quill

namespace Text

/-- The text with a carriage return at the end of each of its lines. -/
def returnedLines (text : String) : String :=
  String.ofList (withReturns text.toList ++ ['\r'])

theorem returnedLines_intercalate {lines : List String} (hne : lines ≠ [])
    (h : ∀ line ∈ lines, '\n' ∉ line.toList) :
    "\n".intercalate (lines.map (·.push '\r')) = returnedLines ("\n".intercalate lines) := by
  induction lines with
  | nil => exact absurd rfl hne
  | cons line lines ih =>
    obtain ⟨hline, hlines⟩ := List.forall_mem_cons.mp h
    cases lines with
    | nil =>
      refine String.toList_injective ?_
      simp [returnedLines, withReturns_of_not_mem hline]
    | cons line' lines =>
      have ih := ih (List.cons_ne_nil _ _) hlines
      rw [List.map_cons] at ih ⊢
      rw [List.map_cons, String.intercalate_cons_cons, String.intercalate_cons_cons, ih]
      refine String.toList_injective ?_
      simp [returnedLines, withReturns_append, withReturns_of_not_mem hline, withReturns_newline]

theorem not_mem_intercalate {c : Char} {lines : List String} (hc : c ≠ '\n')
    (h : ∀ line ∈ lines, c ∉ line.toList) : c ∉ ("\n".intercalate lines).toList := by
  induction lines with
  | nil => simp
  | cons line lines ih =>
    obtain ⟨hline, hlines⟩ := List.forall_mem_cons.mp h
    cases lines with
    | nil => simpa using hline
    | cons line' lines =>
      rw [String.intercalate_cons_cons, String.toList_append, String.toList_append, List.mem_append,
        List.mem_append, not_or, not_or]
      exact ⟨⟨hline, by simp [hc]⟩, ih hlines⟩

theorem return_mem_returnedLines (text : String) : '\r' ∈ (returnedLines text).toList := by
  simp [returnedLines]

end Text

namespace Grammar

open Text

/-- Sees no spans, and documentation as it is with a carriage return at the end of each line. -/
def View.returned : View :=
  ⟨fun _ ↦ .origin, Option.map fun doc ↦ if '\r' ∈ doc.toList then doc else returnedLines doc,
    fun _ _ ↦ rfl⟩

theorem commentText_push (text : String) :
    commentText (text.push '\r') = (commentText text).push '\r' := by
  refine String.toList_injective ?_
  unfold commentText
  rw [String.toList_push, String.toList_push]
  generalize text.toList = cs
  rcases cs with _ | ⟨c, _ | ⟨d, cs⟩⟩
  · rfl
  · by_cases hc : c = '#'
    · subst hc
      rfl
    · simp [hc]
  · by_cases hc : c = '#'
    · by_cases hd : d = ' ' <;> simp [hc, hd]
    · simp [hc]

theorem mem_commentText {text : String} {c : Char} (h : c ∈ (commentText text).toList) :
    c ∈ text.toList := by
  unfold commentText at h
  generalize text.toList = cs at h ⊢
  split at h <;> simp_all

/-- What is on a line, and the same with carriage returns. -/
structure Margin.Returned (m m' : Margin) : Prop where
  comments : m'.comments = m.comments.map (·.push '\r')
  lines : ∀ text ∈ m.comments, '\n' ∉ text.toList ∧ '\r' ∉ text.toList
  hasCode : m'.hasCode = m.hasCode
  hasComment : m'.hasComment = m.hasComment

/-- A token that counts and the same with carriage returns in the text. -/
structure Cell.Returned (c c' : Cell) : Prop where
  kind : c'.kind = c.kind
  span : c.kind ≠ .newline → c.kind ≠ .eof → c'.span = c.span
  doc : ∀ text ∈ c.doc, '\r' ∉ text.toList
  doc' : c'.doc = c.doc.map returnedLines

theorem Cell.Returned.plain {k : Token.Kind} {span span' : Span}
    (h : k ≠ .newline → k ≠ .eof → span' = span) :
    Cell.Returned ⟨k, span, none⟩ ⟨k, span', none⟩ where
  kind := rfl
  span := h
  doc := fun _ htext ↦ by cases htext
  doc' := rfl

namespace Margin.Returned

variable {m m' : Margin} (h : m.Returned m')

include h

theorem comment {text : String} (hn : '\n' ∉ text.toList) (hr : '\r' ∉ text.toList) :
    (m.comment text).Returned (m'.comment (text.push '\r')) where
  comments := by
    rw [Margin.comment, Margin.comment, h.hasCode, commentText_push, h.comments]
    split <;> rfl
  lines := by
    rw [Margin.comment]
    split
    · exact h.lines
    · exact List.forall_mem_cons.mpr
        ⟨⟨fun hm ↦ hn (mem_commentText hm), fun hm ↦ hr (mem_commentText hm)⟩, h.lines⟩
  hasCode := h.hasCode
  hasComment := rfl

theorem newline : m.newline.Returned m'.newline where
  comments := by
    rw [Margin.newline, Margin.newline, h.hasCode, h.hasComment, h.comments]
    split <;> rfl
  lines := by
    rw [Margin.newline]
    split
    · exact h.lines
    · exact nofun
  hasCode := rfl
  hasComment := rfl

theorem code : m.code.Returned m'.code := ⟨rfl, nofun, rfl, h.hasComment⟩

theorem doc (k : Token.Kind) : m'.doc k = (m.doc k).map returnedLines ∧
    ∀ text ∈ m.doc k, '\r' ∉ text.toList := by
  unfold Margin.doc
  split
  case h_4 => exact ⟨rfl, nofun⟩
  all_goals
    rw [h.hasCode, h.comments, List.isEmpty_map]
    split
    · exact ⟨rfl, nofun⟩
    · rename_i hsome
      rw [Bool.or_eq_true, not_or] at hsome
      have hne : m.comments.reverse ≠ [] := by simpa using hsome.2
      have hlines : ∀ line ∈ m.comments.reverse, '\n' ∉ line.toList := fun line hl ↦
        (h.lines line (List.mem_reverse.mp hl)).1
      refine ⟨?_, ?_⟩
      · rw [← List.map_reverse, returnedLines_intercalate hne hlines]
        rfl
      · rintro _ ⟨⟩
        exact not_mem_intercalate (by decide) fun line hl ↦
          (h.lines line (List.mem_reverse.mp hl)).2

end Margin.Returned

theorem cellsOnto_returned {ts us : List Token} (h : Token.Returned ts us) {done done' : List Cell}
    {m m' : Margin} (hm : m.Returned m') (hd : List.Forall₂ Cell.Returned done done') :
    List.Forall₂ Cell.Returned (cellsOnto done m ts) (cellsOnto done' m' us) := by
  have ends {done done' : List Cell} (m m' : Margin) (p q : Position)
      (hd : List.Forall₂ Cell.Returned done done') :
      List.Forall₂ Cell.Returned (cellsOnto done m [Token.endAt p])
        (cellsOnto done' m' [Token.endAt q]) := by
    change List.Forall₂ _ (⟨.eof, .point p, none⟩ :: done).reverse
      (⟨.eof, .point q, none⟩ :: done').reverse
    exact List.rel_reverse (.cons (.plain fun _ ↦ absurd rfl) hd)
  induction h generalizing done done' m m' with
  | stop p q => exact ends m m' p q hd
  | @same t ts us hc _ ih =>
    rw [cellsOnto, cellsOnto]
    split
    · exact ih hm hd
    · exact absurd ‹_› (hc _)
    · exact ih hm.newline (.cons (.plain fun _ _ ↦ rfl) hd)
    · obtain ⟨hdoc, hreturn⟩ := hm.doc t.kind
      exact ih hm.code (.cons ⟨rfl, fun _ _ ↦ rfl, hreturn, hdoc⟩ hd)
  -- Where a blank or a line break stands, and what it was read from, is not seen.
  | @moved t u ts us hk hkind _ ih =>
    rw [cellsOnto, cellsOnto, ← hk]
    obtain hkind | hkind := hkind
    · rw [hkind]
      exact ih hm hd
    · rw [hkind]
      exact ih hm.newline (.cons (.plain (absurd rfl)) hd)
  | blank hk _ ih =>
    rw [cellsOnto, hk]
    exact ih hm hd
  | comment hk hk' hn hr _ ih =>
    rw [cellsOnto, cellsOnto, hk, hk']
    exact ih (hm.comment hn hr) hd
  | @lastComment t text p q hk =>
    have hskip (done : List Cell) (m : Margin) (p : Position) :
        cellsOnto done m [t, Token.endAt p] = cellsOnto done (m.comment text) [Token.endAt p] := by
      rw [cellsOnto, hk]
    rw [hskip, hskip]
    exact ends _ _ p q hd

theorem Cell.Returned.folds {c c' : Cell} {cs cs' : List Cell} (h : c.Returned c')
    (hr : List.Forall₂ Cell.Returned cs cs') : c.folds cs = c'.folds cs' := by
  cases hr with
  | nil => rfl
  | @cons u u' _ _ hu _ =>
    rw [Cell.folds, Cell.folds, h.kind, hu.kind]
    cases hboth : prefixOp? c.kind == some .neg && (negatedLiteral u.kind).isSome with
    | false => rw [Bool.false_and, Bool.false_and]
    | true =>
      obtain ⟨hminus, hnumber⟩ := Bool.and_eq_true_iff.mp hboth
      have hspan : c'.span = c.span := by
        refine h.span (fun hk ↦ ?_) fun hk ↦ ?_ <;>
        · rw [hk] at hminus
          cases hminus
      have hspan' : u'.span = u.span := by
        refine hu.span (fun hk ↦ ?_) fun hk ↦ ?_ <;>
        · rw [hk] at hnumber
          cases hnumber
      rw [hspan, hspan']

theorem Cell.Returned.doc_seen {c c' : Cell} (h : c.Returned c') :
    View.returned.doc c.doc = View.returned.doc c'.doc := by
  rw [h.doc']
  cases hdoc : c.doc with
  | none => rfl
  | some doc =>
    have hr := h.doc doc hdoc
    simp [View.returned, hr, return_mem_returnedLines]

theorem docs_returned {cs cs' : List Cell} (h : List.Forall₂ Cell.Returned cs cs') :
    (∀ c ∈ cs, ∀ doc ∈ c.doc, '\r' ∉ doc.toList) ∧
      ∀ c ∈ cs', ∀ doc ∈ c.doc, '\r' ∈ doc.toList := by
  induction h with
  | nil => exact ⟨nofun, nofun⟩
  | cons hc _ ih =>
    refine ⟨List.forall_mem_cons.mpr ⟨hc.doc, ih.1⟩,
      List.forall_mem_cons.mpr ⟨fun doc hd ↦ ?_, ih.2⟩⟩
    rw [hc.doc'] at hd
    obtain ⟨doc', -, rfl⟩ := Option.map_eq_some_iff.mp hd
    exact return_mem_returnedLines doc'

theorem sight_returned {cs cs' : List Cell} (h : List.Forall₂ Cell.Returned cs cs') :
    sight .returned cs = sight .returned cs' := by
  induction h with
  | nil => rfl
  | cons hc hcs ih => rw [sight, sight, ih, hc.kind, hc.folds hcs, hc.doc_seen]; rfl

theorem takeWhile_returned {p : Cell → Bool} {cs cs' : List Cell}
    (hp : ∀ c c', c.Returned c' → p c = p c') (h : List.Forall₂ Cell.Returned cs cs') :
    List.Forall₂ Cell.Returned (cs.takeWhile p) (cs'.takeWhile p) := by
  induction h with
  | nil => exact .nil
  | cons hc _ ih =>
    rw [List.takeWhile_cons, List.takeWhile_cons, ← hp _ _ hc]
    split
    · exact .cons hc ih
    · exact .nil

theorem Cursor.rest_returned {ts us : List Token} (h : Token.Returned ts us) :
    List.Forall₂ Cell.Returned (Cursor.ofTokens ts).rest (Cursor.ofTokens us).rest := by
  have hcells : List.Forall₂ Cell.Returned (cells ts) (cells us) :=
    cellsOnto_returned h ⟨rfl, nofun, rfl, rfl⟩ .nil
  refine takeWhile_returned (fun c c' hc ↦ ?_) hcells
  rw [hc.kind]

theorem Cursor.ofTokens_returned {ts us : List Token} (h : Token.Returned ts us) :
    (Cursor.ofTokens ts).Alike .returned (Cursor.ofTokens us) :=
  .of_rest (sight_returned (Cursor.rest_returned h)) rfl (Cursor.ofTokens_limit ts)
    (Cursor.ofTokens_limit us)

theorem doc_mem_words {text : String} {p : Program} {ts : Array Token}
    (h : Program.ofText? text = .ok p) (hts : Token.ofText? text = .ok ts) {n : Node}
    (hn : (Node.program p).Inside n) {doc : String} (hd : n.doc = some doc) :
    ∃ c ∈ words ts, c.doc = some doc := by
  obtain rfl | ⟨e, he, hn⟩ := Node.inside_program hn
  · cases hd
  · obtain ⟨ending, own, hown, hspelled⟩ := inside_spelled h hts he hn
    obtain ⟨c, hc, hdoc⟩ := hspelled.doc hd
    exact ⟨c, hown.subset (List.mem_of_head? hc), hdoc⟩

end Grammar

open Grammar

/-- A text in which no string goes over several lines, and the same text with a carriage return
before each line feed, are both no programs, in the same way, or both programs. These are the same
but for spans and documentation: with carriage returns each line of the documentation ends in one,
in all definitions that have any. -/
theorem line_endings_reach_documentation {text : String} {ts : Array Token}
    (h : Token.ofText? text = .ok ts) (hr : '\r' ∉ text.toList) (hs : Token.InLine ts.toList) :
    (∃ p q, Program.ofText? text = .ok p ∧
      Program.ofText? (String.ofList (Text.withReturns text.toList)) = .ok q ∧
      View.returned.exprs p.body = View.returned.exprs q.body ∧
      (∀ n, (Node.program p).Inside n → ∀ doc ∈ n.doc, '\r' ∉ doc.toList) ∧
      ∀ n, (Node.program q).Inside n → ∀ doc ∈ n.doc, '\r' ∈ doc.toList) ∨
    ∃ e f, Program.ofText? text = .error (.parse e) ∧
      Program.ofText? (String.ofList (Text.withReturns text.toList)) = .error (.parse f) ∧
      e.expected = f.expected ∧ e.found = f.found := by
  obtain ⟨us, hus, hreturned⟩ := ((Token.ofText?_iff.mp h).rereads rfl hr hs).whole
  have h' : Token.ofText? (String.ofList (Text.withReturns text.toList)) = .ok us.toArray := by
    rw [Token.ofText?_iff, String.toList_ofList]
    exact hus
  have hsame := ofTokens?_same (Cursor.ofTokens_returned hreturned)
  obtain ⟨hdocs, hdocs'⟩ := docs_returned (Cursor.rest_returned hreturned)
  generalize hx : Program.ofTokens? ts.toList = x, hy : Program.ofTokens? us = y at hsame
  cases hsame with
  | error he hf =>
    refine .inr ⟨_, _, ?_, ?_, he, hf⟩
    · simp only [Program.ofText?, h, hx]
    · simp only [Program.ofText?, h', hy]
  | @ok p q hbody =>
    have hp : Program.ofText? text = .ok p := by simp only [Program.ofText?, h, hx]
    have hq : Program.ofText? (String.ofList (Text.withReturns text.toList)) = .ok q := by
      simp only [Program.ofText?, h', hy]
    refine .inl ⟨p, q, hp, hq, hbody, fun n hn doc hd ↦ ?_, fun n hn doc hd ↦ ?_⟩
    · obtain ⟨c, hc, hdoc⟩ := doc_mem_words hp h hn hd
      exact hdocs c hc doc hdoc
    · obtain ⟨c, hc, hdoc⟩ := doc_mem_words hq h' hn hd
      exact hdocs' c hc doc hdoc

theorem documented_with_returns :
    ∃ p q, Program.ofText? "# one\n# two\ndef f\nend" = .ok p ∧
      Program.ofText? "# one\r\n# two\r\ndef f\r\nend" = .ok q ∧
      View.returned.exprs p.body = View.returned.exprs q.body := by
  have htokens : (match Token.ofText? "# one\n# two\ndef f\nend" with
      | .ok ts => decide (Token.InLine ts.toList)
      | .error _ => false) = true := by
    decide +kernel
  split at htokens
  · rename_i ts hts
    obtain ⟨p, q, hp, hq, hbody, -⟩ | ⟨e, f, h, -⟩ :=
      line_endings_reach_documentation hts (by decide) (of_decide_eq_true htokens)
    · exact ⟨p, q, hp, hq, hbody⟩
    · have hok : (Program.ofText? "# one\n# two\ndef f\nend").toBool = true := by decide +kernel
      rw [h] at hok
      cases hok
  · cases htokens

theorem documentation_changes :
    (Program.ofText? "# doc\ndef f\nend").toOption.map (·.outline.map (·.doc)) =
        some [some "doc"] ∧
      (Program.ofText? "# doc\r\ndef f\r\nend").toOption.map (·.outline.map (·.doc)) =
        some [some "doc\r"] := by
  decide +kernel

end Quill
