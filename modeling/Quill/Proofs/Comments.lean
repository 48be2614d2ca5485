import Mathlib.Data.List.Chain
import Mathlib.Data.List.DropRight
import Quill.Proofs.SpanNesting
import Quill.Proofs.Token.Classes

/-!
# Comments above definitions

Main statement: `comments_attach`. The grammar goes through the tokens once and remembers of the
current line whether it has code or a comment. What it remembers of the comments is told here by the
lines of the tokens, and no comment is before another token of its line but a line break.
-/

namespace Quill

namespace Token

/-- Neither white space nor a comment. -/
def counts (t : Token) : Bool :=
  match t.kind with
  | .whitespace | .comment _ => false
  | _ => true

def isNewline (t : Token) : Bool :=
  match t.kind with
  | .newline => true
  | _ => false

def commentText? (t : Token) : Option String :=
  match t.kind with
  | .comment text => some (Grammar.commentText text)
  | _ => none

def lines (ts : List Token) : List (List Token) := ts.splitOnP isNewline

def endedLines (ts : List Token) : List (List Token) := (lines ts).dropLast

def currentLine (ts : List Token) : List Token := (lines ts).getLastD []

def ownComments (line : List Token) : List String :=
  if line.any counts then [] else line.filterMap commentText?

/-- The comments directly above the current line: those of the lines before it, as far up as each
line has comments and nothing else. -/
def commentsAbove (ts : List Token) : List String :=
  (((endedLines ts).map ownComments).rtakeWhile (· ≠ [])).flatten

def definesKind : Kind → Bool
  | .keyword .def_ | .keyword .type | .keyword .module => true
  | _ => false

/-- The documentation of a token of the kind behind some others. -/
def docAfter (before : List Token) (k : Kind) : Option String :=
  if definesKind k ∧ (currentLine before).any counts = false ∧ commentsAbove before ≠ [] then
    some ("\n".intercalate (commentsAbove before))
  else none

variable {ts : List Token} {t : Token}

theorem lines_eq (ts : List Token) : lines ts = endedLines ts ++ [currentLine ts] := by
  have hne : lines ts ≠ [] := List.splitOnP_ne_nil isNewline ts
  rw [endedLines, currentLine, List.getLastD_eq_getLast?, List.getLast?_eq_some_getLast hne,
    Option.getD_some, List.dropLast_append_getLast hne]

theorem lines_newline (h : t.isNewline = true) (ts : List Token) :
    lines (ts ++ [t]) = lines ts ++ [[]] := List.splitOnP_append_cons ts [] h

theorem lines_other (h : t.isNewline = false) (ts : List Token) :
    lines (ts ++ [t]) = endedLines ts ++ [currentLine ts ++ [t]] := by
  -- Lines are made from the front, so the induction is about any way to take the last one off.
  suffices hlast : ∀ ended current, lines ts = ended ++ [current] →
      lines (ts ++ [t]) = ended ++ [current ++ [t]] from hlast _ _ (lines_eq ts)
  have lines_cons (u : Token) (us : List Token) : lines (u :: us) =
      if u.isNewline then [] :: lines us else (lines us).modifyHead (u :: ·) :=
    List.splitOnP_cons_eq_if_modifyHead u us
  induction ts with
  | nil =>
    intro ended current hlines
    have hlines : [] ++ [[]] = ended ++ [current] := hlines
    obtain ⟨rfl, hcurrent⟩ := List.append_inj' hlines rfl
    obtain rfl : [] = current := (List.cons.inj hcurrent).1
    rw [List.nil_append, lines_cons, h]
    rfl
  | cons u ts ih =>
    intro ended current hlines
    have hrest := ih _ _ (lines_eq ts)
    rw [lines_cons, lines_eq ts] at hlines
    rw [List.cons_append, lines_cons, hrest]
    split at hlines
    · rename_i hu
      rw [if_pos hu]
      rw [← List.cons_append] at hlines
      obtain ⟨rfl, hcurrent⟩ := List.append_inj' hlines rfl
      rw [(List.cons.inj hcurrent).1]
      rfl
    · rename_i hu
      rw [if_neg hu]
      cases hended : endedLines ts with
      | nil =>
        rw [hended] at hlines
        have hlines : [] ++ [u :: currentLine ts] = ended ++ [current] := hlines
        obtain ⟨rfl, hcurrent⟩ := List.append_inj' hlines rfl
        rw [← (List.cons.inj hcurrent).1]
        rfl
      | cons l ls =>
        rw [hended] at hlines
        have hlines : (u :: l) :: ls ++ [currentLine ts] = ended ++ [current] := hlines
        obtain ⟨rfl, hcurrent⟩ := List.append_inj' hlines rfl
        rw [(List.cons.inj hcurrent).1]
        rfl

theorem endedLines_newline (h : t.isNewline = true) (ts : List Token) :
    endedLines (ts ++ [t]) = endedLines ts ++ [currentLine ts] := by
  rw [endedLines, lines_newline h, List.dropLast_concat, lines_eq]

theorem currentLine_newline (h : t.isNewline = true) (ts : List Token) :
    currentLine (ts ++ [t]) = [] := by
  rw [currentLine, lines_newline h, List.getLastD_concat]

theorem endedLines_other (h : t.isNewline = false) (ts : List Token) :
    endedLines (ts ++ [t]) = endedLines ts := by
  rw [endedLines, lines_other h, List.dropLast_concat]

theorem currentLine_other (h : t.isNewline = false) (ts : List Token) :
    currentLine (ts ++ [t]) = currentLine ts ++ [t] := by
  rw [currentLine, lines_other h, List.getLastD_concat]

theorem commentsAbove_newline (h : t.isNewline = true) (ts : List Token) :
    commentsAbove (ts ++ [t]) =
      if ownComments (currentLine ts) = [] then []
      else commentsAbove ts ++ ownComments (currentLine ts) := by
  rw [commentsAbove, endedLines_newline h, List.map_append, List.map_singleton]
  split
  · rename_i hnone
    rw [List.rtakeWhile_concat_neg _ _ _ (by simpa using hnone)]
    rfl
  · rename_i hsome
    rw [List.rtakeWhile_concat_pos _ _ _ (by simpa using hsome), List.flatten_concat]
    rfl

theorem commentsAbove_other (h : t.isNewline = false) (ts : List Token) :
    commentsAbove (ts ++ [t]) = commentsAbove ts := by
  rw [commentsAbove, endedLines_other h]
  rfl

theorem Tokenizes.comment_last {p : Position} {text : List Char} {ts : List Token}
    {e : Option LexError} (h : Tokenizes p text ts e) :
    ts.IsChain fun t u ↦ t.kind ≠ .eof ∧
      (t.commentText?.isSome = true → u.kind = .newline ∨ u.kind = .eof) := by
  induction h with
  | stop => exact .singleton _
  | fail => exact .nil
  | @token p c rest s ts e hc hs htokens ih =>
    cases ts with
    | nil => exact .singleton _
    | cons u us =>
      refine .cons_cons ⟨(scan_isFront hc hs).kind, fun hcomment ↦ ?_⟩ ih
      have hends := (scan_isWord hs).ends
      have hkind : ∃ value, s.kind = .comment value := by
        unfold commentText? at hcomment
        split at hcomment
        · exact ⟨_, ‹_›⟩
        · cases hcomment
      obtain ⟨value, hvalue⟩ := hkind
      rw [hvalue] at hends
      generalize s.rest = rest at htokens hends
      cases htokens with
      | stop => exact .inr rfl
      | @token _ d more s' _ _ hd hs' _ =>
        obtain hline | hstop := hends
        · obtain rfl : d = '\n' := Option.some.inj hline
          cases hs'
          exact .inl rfl
        · rw [List.takeWhile_cons_of_pos (by simpa using hd)] at hstop
          cases hstop

end Token

namespace Grammar

open Token

/-- The margin behind one more token. -/
def Margin.read (m : Margin) (t : Token) : Margin :=
  match t.kind with
  | .whitespace => m
  | .comment text => m.comment text
  | .newline => m.newline
  | _ => m.code

/-- The cells of the tokens that count, from a margin on. -/
def documented (m : Margin) : List Token → List Cell
  | [] => []
  | t :: ts =>
    if t.counts then ⟨t.kind, t.span, m.doc t.kind⟩ :: documented (m.read t) ts
    else documented (m.read t) ts

theorem cellsOnto_documented (done : List Cell) (m : Margin) (ts : List Token) :
    cellsOnto done m ts = done.reverse ++ documented m ts := by
  induction ts generalizing done m with
  | nil => rw [cellsOnto, documented, List.append_nil]
  | cons t ts ih =>
    obtain ⟨kind, lexeme, span⟩ := t
    cases kind <;> simp [cellsOnto, documented, Margin.read, counts, Margin.doc, ih]

theorem documented_append (m : Margin) (ts us : List Token) :
    documented m (ts ++ us) = documented m ts ++ documented (ts.foldl Margin.read m) us := by
  induction ts generalizing m with
  | nil => rfl
  | cons t ts ih =>
    rw [List.cons_append, documented, documented, List.foldl_cons, ih]
    split <;> rfl

theorem documented_length (m : Margin) (ts : List Token) :
    (documented m ts).length = ts.countP counts := by
  induction ts generalizing m with
  | nil => rfl
  | cons t ts ih =>
    rw [documented, List.countP_cons, ← ih]
    split <;> rfl

/-- The margin is that behind these tokens. -/
structure Margin.Marks (m : Margin) (ts : List Token) : Prop where
  hasCode : m.hasCode = (currentLine ts).any counts
  hasComment : m.hasComment = (currentLine ts).any fun t ↦ t.commentText?.isSome
  comments : m.comments.reverse =
    if m.hasCode then [] else commentsAbove ts ++ ownComments (currentLine ts)

theorem ownComments_of_code {line : List Token} (h : line.any counts = true) :
    ownComments line = [] := if_pos h

theorem ownComments_concat {line : List Token} {t : Token} (h : t.counts = false) :
    ownComments (line ++ [t]) =
      if line.any counts then [] else ownComments line ++ t.commentText?.toList := by
  rw [ownComments, ownComments, List.any_append, List.filterMap_append]
  cases hline : line.any counts with
  | true => rfl
  | false => cases hcomment : t.commentText? <;> simp [h, hcomment]

theorem ownComments_eq_nil {line : List Token} (h : line.any counts = false) :
    ownComments line = [] ↔ (line.any fun t ↦ t.commentText?.isSome) = false := by
  rw [ownComments, h, if_neg Bool.false_ne_true, List.filterMap_eq_nil_iff, List.any_eq_false]
  simp

namespace Margin.Marks

variable {m : Margin} {ts : List Token} {t : Token}

theorem whitespace (h : m.Marks ts) (hk : t.kind = .whitespace) : m.Marks (ts ++ [t]) := by
  obtain ⟨hcode, hcomment, hcomments⟩ := h
  have hnewline : t.isNewline = false := by simp [isNewline, hk]
  have hcounts : t.counts = false := by simp [counts, hk]
  have hnone : t.commentText? = none := by simp [commentText?, hk]
  constructor
  · simp [currentLine_other hnewline, hcounts, hcode]
  · simp [currentLine_other hnewline, hnone, hcomment]
  · rw [hcomments, commentsAbove_other hnewline, currentLine_other hnewline,
      ownComments_concat hcounts, hnone, ← hcode]
    split <;> simp

theorem comment {text : String} (h : m.Marks ts) (hk : t.kind = .comment text) :
    (m.comment text).Marks (ts ++ [t]) := by
  obtain ⟨hcode, hcomment, hcomments⟩ := h
  have hnewline : t.isNewline = false := by simp [isNewline, hk]
  have hcounts : t.counts = false := by simp [counts, hk]
  have htext : t.commentText? = some (commentText text) := by simp [commentText?, hk]
  constructor
  · simp [Margin.comment, currentLine_other hnewline, hcounts, hcode]
  · simp [Margin.comment, currentLine_other hnewline, htext]
  · rw [commentsAbove_other hnewline, currentLine_other hnewline, ownComments_concat hcounts,
      htext, ← hcode]
    cases hm : m.hasCode <;> simp [Margin.comment, hm, hcomments]

/-- The comments stay if the line that ends has any. If it has code there are none to stay. -/
theorem newline (h : m.Marks ts) (hk : t.kind = .newline) : m.newline.Marks (ts ++ [t]) := by
  obtain ⟨hcode, hcomment, hcomments⟩ := h
  have hnewline : t.isNewline = true := by simp [isNewline, hk]
  constructor
  · simp [Margin.newline, currentLine_newline hnewline]
  · simp [Margin.newline, currentLine_newline hnewline]
  · have hkept : m.newline.comments =
        if m.hasCode || m.hasComment then m.comments else [] := rfl
    have hcurrent : ownComments [] = [] := rfl
    rw [currentLine_newline hnewline, commentsAbove_newline hnewline, hkept, hcurrent,
      List.append_nil]
    change _ = ite (_ = []) _ _
    cases hm : m.hasCode with
    | true =>
      rw [hm] at hcode hcomments
      rw [if_pos (ownComments_of_code hcode.symm)]
      exact hcomments
    | false =>
      rw [hm] at hcode hcomments
      have hown := ownComments_eq_nil hcode.symm
      rw [← hcomment] at hown
      cases hm' : m.hasComment with
      | true =>
        have hne : ownComments (currentLine ts) ≠ [] := fun h ↦ by
          rw [hown.mp h] at hm'
          cases hm'
        rw [if_neg hne]
        exact hcomments
      | false =>
        rw [if_pos (hown.mpr hm')]
        rfl

theorem code (h : m.Marks ts) (hcounts : t.counts = true) (hnewline : t.isNewline = false)
    (hnone : t.commentText? = none) : m.code.Marks (ts ++ [t]) where
  hasCode := by simp [Margin.code, currentLine_other hnewline, hcounts]
  hasComment := by simp [Margin.code, currentLine_other hnewline, hnone, h.hasComment]
  comments := rfl

theorem read (h : m.Marks ts) (t : Token) : (m.read t).Marks (ts ++ [t]) := by
  obtain ⟨kind, lexeme, span⟩ := t
  cases kind with
  | whitespace => exact h.whitespace rfl
  | comment text => exact h.comment rfl
  | newline => exact h.newline rfl
  | _ => exact h.code rfl rfl rfl

end Margin.Marks

theorem Margin.marks (ts : List Token) : (ts.foldl Margin.read .empty).Marks ts := by
  induction ts using List.reverseRecOn with
  | nil => exact ⟨rfl, rfl, rfl⟩
  | append_singleton ts t ih =>
    rw [List.foldl_concat]
    exact ih.read t

theorem currentLine_comment {before after : List Token} {t : Token}
    (h : (before ++ t :: after).IsChain fun t u ↦ t.kind ≠ .eof ∧
      (t.commentText?.isSome = true → u.kind = .newline ∨ u.kind = .eof))
    (hcomment : ((currentLine before).any fun t ↦ t.commentText?.isSome) = true) :
    t.kind = .newline ∨ t.kind = .eof := by
  induction before using List.reverseRecOn generalizing t after with
  | nil => cases hcomment
  | append_singleton before u ih =>
    rw [List.append_assoc, List.singleton_append] at h
    obtain ⟨hend, hlast⟩ := (List.isChain_append_cons_cons.mp h).2.1
    cases hu : u.isNewline with
    | true =>
      rw [currentLine_newline hu] at hcomment
      cases hcomment
    | false =>
      rw [currentLine_other hu, List.any_append, Bool.or_eq_true] at hcomment
      obtain hcomment | hcomment := hcomment
      · obtain hbreak | heof := ih h hcomment
        · rw [isNewline, hbreak] at hu
          cases hu
        · exact absurd heof hend
      · exact hlast (by simpa using hcomment)

theorem Margin.Marks.doc {m : Margin} {before : List Token} (h : m.Marks before) {k : Token.Kind}
    (hcomment : definesKind k = true →
      ((currentLine before).any fun t ↦ t.commentText?.isSome) = false) :
    m.doc k = docAfter before k := by
  obtain ⟨hcode, -, hcomments⟩ := h
  cases hk : definesKind k with
  | false =>
    have hnone : m.doc k = none := by
      unfold Margin.doc
      split <;> first | rfl | cases hk
    rw [hnone, docAfter, hk, if_neg (fun h ↦ absurd h.1 Bool.false_ne_true)]
  | true =>
    have hdoc : m.doc k = if m.hasCode || m.comments.isEmpty then none
        else some ("\n".intercalate m.comments.reverse) := by
      unfold definesKind at hk
      split at hk <;> first | rfl | cases hk
    rw [hdoc, docAfter, ← hcode]
    cases hm : m.hasCode with
    | true => simp
    | false =>
      rw [hm] at hcode
      rw [hm, (ownComments_eq_nil hcode.symm).mpr (hcomment hk), List.append_nil,
        if_neg Bool.false_ne_true] at hcomments
      rw [← hcomments]
      cases m.comments <;> simp [hk]

theorem mem_documented {m : Margin} {ts : List Token} {c : Cell} (h : c ∈ documented m ts) :
    ∃ before t after, ts = before ++ t :: after ∧
      c = ⟨t.kind, t.span, (before.foldl Margin.read m).doc t.kind⟩ := by
  induction ts generalizing m with
  | nil => cases h
  | cons t ts ih =>
    have later (h : c ∈ documented (m.read t) ts) : ∃ before u after,
        t :: ts = before ++ u :: after ∧
          c = ⟨u.kind, u.span, (before.foldl Margin.read m).doc u.kind⟩ := by
      obtain ⟨before, u, after, rfl, hc⟩ := ih h
      exact ⟨t :: before, u, after, rfl, hc⟩
    rw [documented] at h
    split at h
    · obtain rfl | h := List.mem_cons.mp h
      · exact ⟨[], t, ts, rfl, rfl⟩
      · exact later h
    · exact later h

theorem documented_at (m : Margin) {before after : List Token} {t : Token} (ht : t.counts = true) :
    (documented m (before ++ t :: after))[before.countP counts]? =
      some ⟨t.kind, t.span, (before.foldl Margin.read m).doc t.kind⟩ := by
  rw [documented_append, List.getElem?_append_right (documented_length m before).le,
    documented_length, Nat.sub_self, documented, if_pos ht]
  rfl

theorem commentText_behind {text : String} (h : text.toList.head? = some '#') :
    text = "# " ++ commentText text ∨
      text = "#" ++ commentText text ∧ (commentText text).toList.head? ≠ some ' ' := by
  obtain ⟨rest, htext⟩ := List.head?_eq_some_iff.mp h
  unfold commentText
  rw [htext, ← String.toList_inj, ← String.toList_inj, htext]
  split
  · rename_i more heq
    cases heq
    exact .inl (by simp)
  · rename_i more hblank heq
    cases heq
    refine .inr ⟨by simp, fun hhead ↦ ?_⟩
    rw [String.toList_ofList] at hhead
    obtain ⟨more, rfl⟩ := List.head?_eq_some_iff.mp hhead
    exact hblank more rfl
  · rename_i hblank hmark
    exact absurd rfl (hmark rest)

theorem commentText_of_token {text : String} {ts : Array Token} (h : Token.ofText? text = .ok ts)
    {t : Token} (ht : t ∈ ts.toList) {comment : String} (hk : t.kind = .comment comment) :
    comment = "# " ++ commentText comment ∨
      comment = "#" ++ commentText comment ∧ (commentText comment).toList.head? ≠ some ' ' := by
  obtain ⟨before, after, hts⟩ := List.append_of_mem ht
  have htokens := ofText?_iff.mp h
  rw [hts] at htokens
  obtain ⟨rest, -, hat⟩ := htokens.at_token
  obtain ⟨-, -, hspelled, -⟩ := hat.isWord
  rw [hk] at hspelled
  obtain ⟨htext, hhead, -⟩ := hspelled
  exact commentText_behind (htext ▸ hhead)

end Grammar

def Node.defines : Node → Bool
  | method _ | type _ => true
  | _ => false

namespace Grammar

open Token

theorem Spelled.definer {e : Ending} {n : Node} {own : List Cell} (h : Spelled e n own)
    (hn : n.defines = true) :
    ∃ c, own.head? = some c ∧ definesKind c.kind = true ∧ n.doc = c.doc := by
  obtain ⟨⟨ps, hform, hlaid⟩, -⟩ := h
  cases n with
  | method d =>
    cases hform with
    | method _ hhead _ =>
      cases hhead
      obtain ⟨c, hc, hk, hdoc⟩ := hlaid.definer_doc
      exact ⟨c, hc, by rw [hk]; rfl, hdoc.symm⟩
  | type d =>
    cases hform
    obtain ⟨c, hc, hk, hdoc⟩ := hlaid.definer_doc
    refine ⟨c, hc, ?_, hdoc.symm⟩
    rw [hk]
    cases d.sort <;> rfl
  | _ => cases hn

end Grammar

open Grammar Token

/-- The tokens of a text that count are the cells that the grammar sees, one by one. A cell has as
documentation the comments directly above its line, if it is the first one there and the word that
a definition starts with, and none otherwise. Of the comments the mark and one blank are left out.
These are the documentation of all definitions in the program, if the text is one. -/
theorem comments_attach {text : String} {ts : Array Token} (h : Token.ofText? text = .ok ts) :
    (cells ts.toList).length = ts.toList.countP counts ∧
    (∀ before t after, ts.toList = before ++ t :: after → t.counts = true →
      (cells ts.toList)[before.countP counts]? =
        some ⟨t.kind, t.span, docAfter before t.kind⟩) ∧
    (∀ t ∈ ts.toList, ∀ comment, t.kind = .comment comment →
      comment = "# " ++ commentText comment ∨
        comment = "#" ++ commentText comment ∧ (commentText comment).toList.head? ≠ some ' ') ∧
    ∀ p, Program.ofText? text = .ok p → ∀ n, (Node.program p).Inside n → n.defines = true →
      ∃ before t after, ts.toList = before ++ t :: after ∧ definesKind t.kind = true ∧
        t.span.first = n.span.first ∧ n.doc = docAfter before t.kind := by
  have hchain := (ofText?_iff.mp h).comment_last
  have hcells : cells ts.toList = documented .empty ts.toList := cellsOnto_documented [] .empty _
  have hdoc {before after : List Token} {t : Token} (hts : ts.toList = before ++ t :: after) :
      (before.foldl Margin.read .empty).doc t.kind = docAfter before t.kind := by
    refine (Margin.marks before).doc fun hk ↦ Bool.eq_false_iff.mpr fun hcomment ↦ ?_
    rw [hts] at hchain
    obtain hbreak | heof := currentLine_comment hchain hcomment
    · rw [hbreak] at hk
      cases hk
    · rw [heof] at hk
      cases hk
  refine ⟨by rw [hcells, documented_length], fun before t after hts ht ↦ ?_,
    fun t ht comment ↦ commentText_of_token h ht, fun p hp n hn hdefines ↦ ?_⟩
  · rw [hcells, hts, documented_at .empty ht, hdoc hts]
  · obtain rfl | ⟨e, he, hn⟩ := Node.inside_program hn
    · cases hdefines
    obtain ⟨ending, own, hown, hspelled⟩ := inside_spelled hp h he hn
    obtain ⟨c, hc, hk, hndoc⟩ := hspelled.definer hdefines
    obtain ⟨c', hc', hfirst⟩ := hspelled.frames.first
    obtain rfl := Option.some.inj (hc.symm.trans hc')
    have hmem : c ∈ cells ts.toList :=
      (List.takeWhile_prefix _).subset (hown.subset (List.mem_of_head? hc))
    rw [hcells] at hmem
    obtain ⟨before, t, after, hts, rfl⟩ := mem_documented hmem
    exact ⟨before, t, after, hts, hk, hfirst.symm, hndoc.trans (hdoc hts)⟩

/-- A comment behind code and one above an empty line are no documentation. -/
theorem method_documented : ∃ (ts : Array Token) (before : List Token) (t : Token),
    Token.ofText? "x # no\n# far\n\n# one\n#  two\n def f\nend" = .ok ts ∧
      definesKind t.kind = true ∧ (cells ts.toList)[List.countP counts before]? =
        some ⟨t.kind, t.span, some "one\n two"⟩ := by
  have found : (match Token.ofText? "x # no\n# far\n\n# one\n#  two\n def f\nend" with
      | .ok ts => ts.toList[12]?.any fun t : Token ↦ t.counts && definesKind t.kind &&
          docAfter (ts.toList.take 12) t.kind == some "one\n two"
      | .error _ => false) = true := by
    decide +kernel
  split at found
  · rename_i ts hts
    obtain ⟨t, ht, found⟩ := (Option.any_eq_true _ _).mp found
    rw [Bool.and_eq_true, Bool.and_eq_true, beq_iff_eq] at found
    obtain ⟨⟨hcounts, hdefines⟩, hdoc⟩ := found
    obtain ⟨hlt, rfl⟩ := List.getElem?_eq_some_iff.mp ht
    have hsplit : ts.toList = ts.toList.take 12 ++ ts.toList[12] :: ts.toList.drop 13 := by
      rw [← List.drop_eq_getElem_cons hlt, List.take_append_drop]
    refine ⟨ts, ts.toList.take 12, _, hts, hdefines, ?_⟩
    rw [← hdoc]
    exact (comments_attach hts).2.1 _ _ _ hsplit hcounts
  · cases found

end Quill
