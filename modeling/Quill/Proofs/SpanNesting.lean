import Quill.Proofs.Grammar.Soundness.Program

/-!
# Spans nest

Main statements: `spans_nest` and `spans_are_own`. The span of a node covers those of all nodes
inside. It goes from the first to the last of the tokens that the node is made of; only for an arm,
a rescue clause and a branch of an `if` these include the line breaks before what follows.
-/

namespace Quill

namespace Grammar

def words (ts : Array Token) : List Cell := (Cursor.ofTokens ts.toList).rest

theorem ordered_words {text : String} {ts : Array Token} (h : Token.ofText? text = .ok ts) :
    Ordered (words ts) :=
  (ordered_cells (Token.ofText?_inOrder h)).sublist (List.takeWhile_sublist _)

theorem program_spelled {text : String} {p : Program} (h : Program.ofText? text = .ok p) :
    ∃ ts, Token.ofText? text = .ok ts ∧ (∃ ps, Sequence p.body ps ∧ Laid ps (words ts)) ∧
      p.span = match p.body.getLast? with
        | some e => (Cursor.ofTokens ts.toList).span.merge e.span
        | none => (Cursor.ofTokens ts.toList).span := by
  unfold Program.ofText? at h
  split at h
  · cases h
  · rename_i ts hts
    refine ⟨ts, hts, ?_⟩
    split at h
    · rename_i q hq
      cases h
      unfold Program.ofTokens? at hq
      split at hq
      · rename_i c hprogram
        cases hq
        refine program_gives (ordered_words hts) (fun t ht ↦ ?_) p c hprogram
        exact List.mem_takeWhile_imp (p := fun t : Cell ↦ t.kind != .eof) ht
      · cases hq
    · cases h

variable {p : Program} {ps : List Part} {cells : List Cell}

theorem Sequence.spelled (h : Sequence p.body ps) (hl : Laid ps cells) {e : Expr}
    (he : e ∈ p.body) : ∃ own, own <:+: cells ∧ Spelled .tight (.expr e) own := by
  refine hl.spelled (mem_nodes.mp ?_)
  rw [h.nodes]
  exact List.mem_map.mpr ⟨.expr e, List.mem_map_of_mem he, rfl⟩

theorem Sequence.apart (h : Sequence p.body ps) (hl : Laid ps cells) (ho : Ordered cells) :
    p.body.Pairwise fun e e' ↦ e.span.last < e'.span.first := by
  have hapart := hl.apart ho
  rw [h.nodes, usual, List.map_map, List.pairwise_map] at hapart
  exact hapart.imp fun hab ↦ hab.2 rfl

theorem Sequence.program_span {c : Cursor} {front : List Expr} {e : Expr} (ho : Ordered c.rest)
    (hs : Sequence p.body ps) (hl : Laid ps c.rest) (hbody : p.body = front ++ [e]) :
    c.span.merge e.span = ⟨c.span.first, e.span.last⟩ ∧
      ∀ e' ∈ p.body, c.span.first ≤ e'.span.first ∧ e'.span.last ≤ e.span.last := by
  have later (e' : Expr) (he' : e' ∈ p.body) :
      c.span.first ≤ e'.span.first ∧ c.span.last ≤ e'.span.last := by
    obtain ⟨own, hown, hspelled⟩ := hs.spelled hl he'
    obtain ⟨a, ha, hfirst⟩ := hspelled.frames.first
    obtain ⟨z, hz, hlast, -⟩ := hspelled.frames.last
    have ha := hown.subset (List.mem_of_head? ha)
    have hz := hown.subset (List.mem_of_getLast? hz)
    change c.span.first ≤ (Node.expr e').span.first ∧ c.span.last ≤ (Node.expr e').span.last
    rw [hfirst, hlast]
    unfold Cursor.span
    cases hrest : c.rest with
    | nil =>
      rw [hrest] at ha
      cases ha
    | cons b rest =>
      rw [hrest] at ho ha hz
      exact ⟨(ho.head_le ha).1, (ho.head_le hz).2⟩
  have he : e ∈ p.body := by simp [hbody]
  refine ⟨Span.merge_of_le (later e he).1 (later e he).2, fun e' he' ↦ ⟨(later e' he').1, ?_⟩⟩
  rw [hbody] at he'
  obtain he' | he' := List.mem_append.mp he'
  · have hapart := hs.apart hl ho
    rw [hbody] at hapart
    have hlt := (List.pairwise_append.mp hapart).2.2 e' he' e (List.mem_singleton_self e)
    obtain ⟨own, hown, hspelled⟩ := hs.spelled hl he
    exact hlt.le.trans (hspelled.frames.ordered (ho.sublist hown.sublist))
  · rw [List.mem_singleton.mp he']

theorem Cursor.span_ordered {text : String} {ts : Array Token}
    (h : Token.ofText? text = .ok ts) : (Cursor.ofTokens ts.toList).span.Ordered := by
  have hcells := ordered_cells (Token.ofText?_inOrder h)
  unfold Cursor.span
  split
  · unfold Cursor.ofTokens
    dsimp only
    split
    · rename_i c hc
      exact hcells.spans c (mem_of_stop hc)
    · exact le_rfl
  · rename_i t rest hrest
    exact (ordered_words h).spans t (by rw [words, hrest]; exact List.mem_cons_self)

end Grammar

open Grammar

theorem program_covers {text : String} {p : Program} (h : Program.ofText? text = .ok p) :
    p.span.Ordered ∧ ∀ e ∈ p.body, p.span.Covers e.span := by
  obtain ⟨ts, hts, ⟨ps, hsequence, hlaid⟩, hspan⟩ := program_spelled h
  have ho := ordered_words hts
  obtain hbody | ⟨front, e, hbody⟩ := List.eq_nil_or_concat p.body
  · rw [hbody] at hspan ⊢
    refine ⟨?_, nofun⟩
    rw [hspan]
    exact Cursor.span_ordered hts
  · rw [List.concat_eq_append] at hbody
    obtain ⟨hmerge, hcovers⟩ := hsequence.program_span ho hlaid hbody
    have hlast : p.body.getLast? = some e := by rw [hbody, List.getLast?_concat]
    rw [hlast] at hspan
    dsimp only at hspan
    rw [hmerge] at hspan
    have covers (e' : Expr) (he' : e' ∈ p.body) : p.span.Covers e'.span := by
      rw [hspan]
      exact hcovers e' he'
    refine ⟨?_, covers⟩
    have he : e ∈ p.body := by simp [hbody]
    obtain ⟨own, hown, hspelled⟩ := hsequence.spelled hlaid he
    have hordered := hspelled.frames.ordered (ho.sublist hown.sublist)
    exact ((covers e he).1.trans hordered).trans (covers e he).2

theorem inside_spelled {text : String} {p : Program} {ts : Array Token}
    (h : Program.ofText? text = .ok p) (hts : Token.ofText? text = .ok ts) {e : Expr}
    (he : e ∈ p.body) {n : Node} (hn : (Node.expr e).Inside n) :
    ∃ ending own, own <:+: words ts ∧ Spelled ending n own := by
  obtain ⟨ts', hts', ⟨ps, hsequence, hlaid⟩, -⟩ := program_spelled h
  obtain rfl := Except.ok.inj (hts'.symm.trans hts)
  obtain ⟨own, hown, hspelled⟩ := hsequence.spelled hlaid he
  obtain ⟨ending, own', hown', hspelled'⟩ := hspelled.inside hn
  exact ⟨ending, own', hown'.trans hown, hspelled'⟩

theorem Node.inside_program {p : Program} {n : Node} (h : (Node.program p).Inside n) :
    n = .program p ∨ ∃ e ∈ p.body, (Node.expr e).Inside n := by
  obtain h | ⟨m, hm, h⟩ := h.cases_head
  · exact .inl h.symm
  · obtain ⟨e, he, rfl⟩ := List.mem_map.mp hm
    exact .inr ⟨e, he, h⟩

/-- The span of every node goes from a position to one not before it, and covers the spans of all
nodes inside. In particular that of a program covers all its statements. -/
theorem spans_nest {text : String} {p : Program} (h : Program.ofText? text = .ok p) {n m : Node}
    (hn : (Node.program p).Inside n) (hm : n.Inside m) :
    n.span.Ordered ∧ n.span.Covers m.span := by
  obtain ⟨ts, hts, -, -⟩ := program_spelled h
  have inside {e : Expr} (he : e ∈ p.body) {n : Node} (hn : (Node.expr e).Inside n) (m : Node)
      (hm : n.Inside m) : n.span.Ordered ∧ n.span.Covers m.span := by
    obtain ⟨ending, own, hown, hspelled⟩ := inside_spelled h hts he hn
    have ho := (ordered_words hts).sublist hown.sublist
    exact ⟨hspelled.frames.ordered ho, hspelled.covers ho hm⟩
  obtain ⟨hordered, hcovers⟩ := program_covers h
  obtain rfl | ⟨e, he, hn⟩ := Node.inside_program hn
  · refine ⟨hordered, ?_⟩
    obtain rfl | ⟨e, he, hm⟩ := Node.inside_program hm
    · exact .refl _
    · exact (hcovers e he).trans (inside he .refl m hm).2
  · exact inside he hn m hm

theorem nested_spans :
    ∃ p, Program.ofText? "def f(x: Int) if x > 1\n  case x\n  when [a, *b]\n    a\n  end\nend" =
        .ok p ∧
      ∀ n m, (Node.program p).Inside n → n.Inside m →
        n.span.Ordered ∧ n.span.Covers m.span := by
  have hok : (Program.ofText?
      "def f(x: Int) if x > 1\n  case x\n  when [a, *b]\n    a\n  end\nend").toBool = true := by
    decide +kernel
  cases h : Program.ofText?
      "def f(x: Int) if x > 1\n  case x\n  when [a, *b]\n    a\n  end\nend" with
  | error e =>
    rw [h] at hok
    cases hok
  | ok p => exact ⟨p, rfl, fun n m hn hm ↦ spans_nest h hn hm⟩

/-- A part of a construct that ends where another part or the end of the construct follows. -/
def Node.IsBranch : Node → Prop
  | arm _ | rescue _ | cond .. => True
  | expr e => ∃ c es elseBody, e.kind = .cond e.span c es elseBody
  | _ => False

theorem Grammar.Form.isBranch {n : Node} {ps : List Part} (h : Form .loose n ps) : n.IsBranch := by
  cases h with
  | laterBranch => exact ⟨_, _, _, rfl⟩
  | _ => trivial

theorem Grammar.Spelled.bounds {ending : Ending} {n : Node} {own : List Cell}
    (h : Spelled ending n own) :
    ∃ first last, own.head? = some first ∧ own.getLast? = some last ∧
      n.span = ⟨first.span.first, last.span.last⟩ ∧ (last.kind = .newline → n.IsBranch) := by
  obtain ⟨first, hfirst, hspan⟩ := h.frames.first
  obtain ⟨last, hlast, hspan', htight⟩ := h.frames.last
  refine ⟨first, last, hfirst, hlast, by rw [← hspan, ← hspan'], fun hk ↦ ?_⟩
  obtain ⟨ps, hform, -⟩ := h.parts
  cases ending with
  | tight => exact absurd hk (htight rfl)
  | loose => exact hform.isBranch

/-- The span of a program goes from its first token to its last statement. Every other node has
tokens of its own, of which it is made in one of the forms of the grammar, and its span goes from
the first character of the first one to the last character of the last one. That one is no line
break, except for arms, rescue clauses and branches of an `if`, to which the line breaks belong that
part them from what follows. What stands side by side in a node is in the order of the tree, and
each ends before the next starts; such an arm or clause may end where the next starts. -/
theorem spans_are_own {text : String} {p : Program} (h : Program.ofText? text = .ok p) :
    ∃ ts, Token.ofText? text = .ok ts ∧
      (p.span.first = (Cursor.ofTokens ts.toList).span.first ∧
        ∀ e ∈ p.body.getLast?, p.span.last = e.span.last) ∧
      ∀ n, (Node.program p).Inside n →
        (n = .program p ∨ ∃ ending own first last, own <:+: words ts ∧ Spelled ending n own ∧
          own.head? = some first ∧ own.getLast? = some last ∧
          n.span = ⟨first.span.first, last.span.last⟩ ∧
          (last.kind = .newline → n.IsBranch)) ∧
        n.siblings.Pairwise fun m m' ↦ m.span.last ≤ m'.span.first ∧
          (m.ending = .tight → m.span.last < m'.span.first) := by
  obtain ⟨ts, hts, ⟨ps, hsequence, hlaid⟩, hspan⟩ := program_spelled h
  have ho := ordered_words hts
  refine ⟨ts, hts, ?_, fun n hn ↦ ?_⟩
  · obtain hbody | ⟨front, e, hbody⟩ := List.eq_nil_or_concat p.body
    · rw [hbody] at hspan ⊢
      exact ⟨by rw [hspan]; rfl, nofun⟩
    · rw [List.concat_eq_append] at hbody
      rw [hbody, List.getLast?_concat] at hspan ⊢
      dsimp only at hspan
      rw [(hsequence.program_span ho hlaid hbody).1] at hspan
      rw [hspan]
      refine ⟨rfl, fun e' he' ↦ ?_⟩
      cases he'
      rfl
  · obtain rfl | ⟨e, he, hn⟩ := Node.inside_program hn
    · refine ⟨.inl rfl, List.pairwise_map.mpr ?_⟩
      exact (hsequence.apart hlaid ho).imp fun hlt ↦ ⟨hlt.le, fun _ ↦ hlt⟩
    · obtain ⟨ending, own, hown, hspelled⟩ := inside_spelled h hts he hn
      obtain ⟨first, last, hbounds⟩ := hspelled.bounds
      refine ⟨.inr ⟨ending, own, first, last, hown, hspelled, hbounds⟩, ?_⟩
      exact hspelled.siblings (ho.sublist hown.sublist)

theorem arms_are_apart :
    ∃ p, Program.ofText? "case 1\nwhen 1\n2\nwhen 2\n3\nend" = .ok p ∧
      ∀ n, (Node.program p).Inside n → n.siblings.Pairwise fun m m' ↦
        m.span.last ≤ m'.span.first ∧ (m.ending = .tight → m.span.last < m'.span.first) := by
  have hok : (Program.ofText? "case 1\nwhen 1\n2\nwhen 2\n3\nend").toBool = true := by
    decide +kernel
  cases h : Program.ofText? "case 1\nwhen 1\n2\nwhen 2\n3\nend" with
  | error e =>
    rw [h] at hok
    cases hok
  | ok p =>
    obtain ⟨ts, -, -, hnodes⟩ := spans_are_own h
    exact ⟨p, rfl, fun n hn ↦ (hnodes n hn).2⟩

/-- The program is a `case` with two arms, the first of which ends where the second begins. -/
def Program.armsTouch (p : Program) : Bool :=
  match p.body with
  | [⟨.select _ _ [a, b] none, _⟩] => a.span.last = b.span.first
  | _ => false

theorem arms_overlap :
    ∃ p s s' e a b, Program.ofText? "case 1\nwhen 1\n2\nwhen 2\n3\nend" = .ok p ∧
      p.body = [⟨.select s e [a, b] none, s'⟩] ∧ a.span.last = b.span.first := by
  have h : (Program.ofText? "case 1\nwhen 1\n2\nwhen 2\n3\nend").toOption.any
      Program.armsTouch = true := by
    decide +kernel
  cases hp : Program.ofText? "case 1\nwhen 1\n2\nwhen 2\n3\nend" with
  | error e =>
    rw [hp] at h
    cases h
  | ok p =>
    rw [hp] at h
    have htouch : p.armsTouch = true := h
    unfold Program.armsTouch at htouch
    split at htouch
    · rename_i hbody
      exact ⟨p, _, _, _, _, _, rfl, hbody, of_decide_eq_true htouch⟩
    · cases htouch

end Quill
