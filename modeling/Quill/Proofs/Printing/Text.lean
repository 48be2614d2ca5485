import Quill.Proofs.Printing.Words

/-!
# The tokens of a written tree

The pieces of a written tree are the tokens that are read from its text. Only the number -2^63 is
out of reach, as a token has no sign.
-/

namespace Quill

open Token

/-- Pieces at the front of which neither a blank nor an equals sign stands, and which are tokens
before any text that delimits them. -/
structure Readable (qs : List Piece) : Prop where
  opens : ∃ c cs, Piece.spell qs = c :: cs ∧ c ∉ [' ', '\t', '\r', '=']
  lexes : ∀ ps, Piece.Lexes ps → Delimits (Piece.spell ps) → Piece.Lexes (qs ++ ps)

/-- Pieces that delimit what stands before them. -/
def Continues (qs : List Piece) : Prop :=
  ∀ ps, Piece.Lexes ps → Delimits (Piece.spell ps) →
    Piece.Lexes (qs ++ ps) ∧ Delimits (Piece.spell (qs ++ ps))

open Piece

theorem Readable.head {qs : List Piece} (h : Readable qs) (ps : List Piece) :
    ∀ c ∈ (spell (qs ++ ps)).head?, isSpace c = false ∧ c ≠ '=' := by
  obtain ⟨c, cs, hspell, hc⟩ := h.opens
  rw [spell_append, hspell]
  rintro d ⟨⟩
  simp only [List.mem_cons, List.not_mem_nil, or_false, not_or] at hc
  simp [isSpace, hc]

theorem Readable.append {qs ps : List Piece} (hq : Readable qs) (hp : Continues ps) :
    Readable (qs ++ ps) where
  opens := by
    obtain ⟨c, cs, hspell, hc⟩ := hq.opens
    exact ⟨c, cs ++ spell ps, by rw [spell_append, hspell, List.cons_append], hc⟩
  lexes rs hr hd := by
    obtain ⟨hl, hd⟩ := hp rs hr hd
    rw [List.append_assoc]
    exact hq.lexes _ hl hd

theorem Continues.append {qs ps : List Piece} (hq : Continues qs) (hp : Continues ps) :
    Continues (qs ++ ps) := by
  intro rs hr hd
  obtain ⟨hl, hd⟩ := hp rs hr hd
  rw [List.append_assoc]
  exact hq _ hl hd

theorem Readable.single {q : Piece} (h : ∀ tail, Delimits tail → q.Scans tail)
    (ho : ∃ c cs, q.text = c :: cs ∧ c ∉ [' ', '\t', '\r', '=']) : Readable [q] where
  opens := by
    obtain ⟨c, cs, hq, hc⟩ := ho
    exact ⟨c, cs, by simp [hq], hc⟩
  lexes ps hp hd := ⟨h _ hd, hp⟩

theorem lexes_mark {m : Mark} {ps : List Piece} (hm : m ≠ .colon) (h : ∀ c, m.growsBy c = false)
    (hp : Lexes ps) : Lexes (.mark m :: ps) := ⟨mark_scans hm fun c _ ↦ h c, hp⟩

theorem Readable.parens {qs : List Piece} (h : Readable qs) : Readable (Tree.parens qs) where
  opens := ⟨'(', _, rfl, by decide⟩
  lexes ps hp _ := by
    rw [Tree.parens_append]
    exact lexes_mark (by decide) (fun _ ↦ rfl)
      (h.lexes _ (lexes_mark (by decide) (fun _ ↦ rfl) hp) (.of_cons (by decide)))

theorem Readable.grouped {qs : List Piece} (floor precedence : Nat) (h : Readable qs) :
    Readable (Tree.grouped floor precedence qs) := by
  unfold Tree.grouped
  split
  · exact h.parens
  · exact h

theorem Continues.spaced {m : Mark} {qs : List Piece} (hm : m ≠ .colon) (h : Readable qs) :
    Continues (Tree.spaced m ++ qs) := by
  intro ps hp hd
  refine ⟨⟨blank_scans ?_, mark_scans hm ?_, blank_scans ?_, h.lexes ps hp hd⟩,
    .of_cons (by decide)⟩
  · cases m <;> (rintro c ⟨⟩; rfl)
  · rintro c ⟨⟩
    exact m.growsBy_blank
  · exact fun c hc ↦ (h.head ps c hc).1

/-- Pieces that may be empty and stand between brackets. -/
def Fills (qs : List Piece) : Prop :=
  ∀ ps, Lexes ps → Delimits (spell ps) → Lexes (qs ++ ps)

theorem Fills.brackets {qs : List Piece} (h : Fills qs) : Continues (Tree.brackets qs) := by
  intro ps hp _
  rw [Tree.brackets_append]
  exact ⟨lexes_mark (by decide) (fun _ ↦ rfl)
    (h _ (lexes_mark (by decide) (fun _ ↦ rfl) hp) (.of_cons (by decide))), .of_cons (by decide)⟩

theorem Fills.parens {qs : List Piece} (h : Fills qs) : Continues (Tree.parens qs) := by
  intro ps hp _
  rw [Tree.parens_append]
  exact ⟨lexes_mark (by decide) (fun _ ↦ rfl)
    (h _ (lexes_mark (by decide) (fun _ ↦ rfl) hp) (.of_cons (by decide))), .of_cons (by decide)⟩

theorem Name.opens {start : Char → Bool} {suffixed : Bool} (name : Name start suffixed)
    (hs : [' ', '\t', '\r', '='].any start = false) :
    ∃ c cs, name.text.toList = c :: cs ∧ c ∉ [' ', '\t', '\r', '='] := by
  obtain ⟨c, cs, htext, hc, -⟩ := name.split
  exact ⟨c, cs, htext, not_mem_of_holds hc hs⟩

theorem word_readable (w : Word) : Readable [.word w.text] :=
  .single (fun _ ↦ word_scans w) (w.opens rfl)

theorem constant_readable (name : ConstantName) : Readable [.constant name.text] :=
  .single (fun _ ↦ constant_scans name) (name.opens rfl)

theorem Variable.readable (x : Variable) : Readable [x.piece] := by
  cases x with
  | local_ name => exact word_readable name.toName
  | constant name => exact constant_readable name
  | attr name => exact .single (fun _ ↦ attr_scans name) ⟨'@', _, rfl, by decide⟩

theorem keyword_readable (k : Keyword) : Readable [.word k.text] :=
  .single (fun _ ↦ keyword_scans k) (by cases k <;> exact ⟨_, _, rfl, by decide⟩)

theorem Atom.readable (a : Atom) : Readable [a.piece] := by
  cases a with
  | str value => exact .single (fun tail _ ↦ str_scans value tail) ⟨'"', _, rfl, by decide⟩
  | symbol name => exact .single (fun _ ↦ symbol_scans name) ⟨':', _, rfl, by decide⟩
  | nil => exact keyword_readable .nil
  | bool value =>
    cases value with
    | false => exact keyword_readable .false_
    | true => exact keyword_readable .true_
  | self => exact keyword_readable .self
  | var x => exact x.readable

theorem MethodName.scans (m : MethodName) (tail : List Char) : m.piece.Scans ('(' :: tail) := by
  have hd : Delimits ('(' :: tail) := .of_cons (by decide)
  cases m with
  | word name => exact word_scans name hd
  | constant name => exact constant_scans name hd
  | operator mark names =>
    refine mark_scans (by rintro rfl; cases names) ?_
    rintro c ⟨⟩
    exact mark.growsBy_lParen

theorem MethodName.not_digit (m : MethodName) :
    ∃ c cs, m.piece.text = c :: cs ∧ c.isDigit = false := by
  cases m with
  | word name =>
    obtain ⟨c, cs, htext, hc, -⟩ := name.split
    exact ⟨c, cs, htext, (startsName_disjoint hc).1⟩
  | constant name =>
    obtain ⟨c, cs, htext, hc, -⟩ := name.split
    exact ⟨c, cs, htext, not_digit_of_isUpper hc⟩
  | operator mark names => cases mark <;> exact ⟨_, _, rfl, rfl⟩

theorem dotted_continues {q : Piece} {ps : List Piece}
    (hq : ∀ rs, Delimits (spell (ps ++ rs)) → q.Scans (spell (ps ++ rs)))
    (ho : ∃ c cs, q.text = c :: cs ∧ c.isDigit = false) (hp : Continues ps) :
    Continues (.mark .dot :: q :: ps) := by
  intro rs hr hd
  obtain ⟨hl, hd⟩ := hp rs hr hd
  obtain ⟨c, cs, hc, hdigit⟩ := ho
  refine ⟨lexes_mark (by decide) (fun _ ↦ rfl) ⟨hq rs hd, hl⟩, ?_⟩
  have hspell : spell (.mark .dot :: q :: ps ++ rs) = '.' :: c :: (cs ++ spell (ps ++ rs)) := by
    rw [List.cons_append, List.cons_append, spell_cons, spell_cons, hc]
    rfl
  rw [hspell]
  refine ⟨by simp, fun d rest heq ↦ ?_⟩
  obtain ⟨-, heq⟩ := List.cons.inj heq
  obtain ⟨rfl, -⟩ := List.cons.inj heq
  exact hdigit

theorem MethodName.continues (m : MethodName) {qs : List Piece} (h : Fills qs) :
    Continues (.mark .dot :: m.piece :: Tree.parens qs) := by
  refine dotted_continues (fun rs _ ↦ ?_) m.not_digit h.parens
  rw [Tree.parens_append]
  exact m.scans _

theorem Tree.intPieces_readable {n : Int64} (h : n ≠ Int64.minValue) :
    Readable (Tree.intPieces n) := by
  obtain ⟨c, cs, hcs, hdigits⟩ := toDigits_cons n.toInt.natAbs
  have hc : c.isDigit = true := hdigits c List.mem_cons_self
  unfold Tree.intPieces
  split
  · refine ⟨⟨'-', _, rfl, by decide⟩, fun ps hp hd ↦ ⟨mark_scans (by decide) ?_, ?_, hp⟩⟩
    · have hnot : c ∉ ['@', '='] := not_mem_of_holds hc rfl
      have hhead : (spell ([.digits n.toInt.natAbs] ++ ps)).head? = some c := by
        simp [Piece.text, hcs]
      intro d hd
      cases hhead.symm.trans hd
      simpa [Mark.minus_growsBy] using hnot
    · exact int_scans h hd
  · exact .single (fun _ ↦ int_scans h) ⟨c, cs, hcs, not_mem_of_holds hc rfl⟩

namespace Tree

theorem unary_readable (op : PrefixOp) {t : Tree} (h : Readable t.pieces) :
    Readable (unary op t).pieces := by
  have hg := h.grouped 7 t.precedence
  cases op with
  | neg =>
    refine ⟨⟨'-', _, rfl, by decide⟩, fun ps hp hd ↦ ?_⟩
    refine ⟨mark_scans (by decide) ?_, blank_scans fun c hc ↦ (hg.head ps c hc).1,
      hg.lexes ps hp hd⟩
    rintro c ⟨⟩
    exact Mark.minus.growsBy_blank
  | not =>
    refine ⟨⟨'!', _, rfl, by decide⟩, fun ps hp hd ↦ ?_⟩
    refine ⟨mark_scans (by decide) fun c hc ↦ ?_, hg.lexes ps hp hd⟩
    rw [Mark.bang_growsBy]
    exact beq_false_of_ne (hg.head ps c hc).2

mutual

theorem readable : (t : Tree) → Int64.minValue ∉ t.ints → Readable t.pieces
  | int n, h => intPieces_readable (by simpa [ints, eq_comm] using h)
  | atom a, _ => a.readable
  | list items, h =>
    ⟨⟨'[', _, rfl, by decide⟩, fun ps hp hd ↦ ((separated_fills items h).brackets ps hp hd).1⟩
  | call r m args, h => by
    simp only [ints, List.mem_append, not_or] at h
    exact ((r.readable h.1).grouped _ _).append (m.continues (separated_fills args h.2))
  | callSelf f args, h => (word_readable f.toName).append (separated_fills args h).parens
  | index r args, h => by
    simp only [ints, List.mem_append, not_or] at h
    exact ((r.readable h.1).grouped _ _).append (separated_fills args h.2).brackets
  | unary op t, h => unary_readable op (t.readable h)
  | binary op l r, h => by
    simp only [ints, List.mem_append, not_or] at h
    exact ((l.readable h.1).grouped _ _).append
      (.spaced (by cases op <;> decide) ((r.readable h.2).grouped _ _))
  | logical op l r, h => by
    simp only [ints, List.mem_append, not_or] at h
    exact ((l.readable h.1).grouped _ _).append
      (.spaced (by cases op <;> decide) ((r.readable h.2).grouped _ _))
  | assign op x v, h => x.readable.append (.spaced (by cases op <;> decide) (v.readable h))
  | assignIndex op r args v, h => by
    simp only [ints, List.mem_append, not_or] at h
    exact ((r.readable h.1.1).grouped _ _).append ((separated_fills args h.1.2).brackets.append
      (.spaced (by cases op <;> decide) (v.readable h.2)))
  | assignMember op r name v, h => by
    simp only [ints, List.mem_append, not_or] at h
    obtain ⟨c, cs, htext, hc, -⟩ := name.split
    exact ((r.readable h.1).grouped _ _).append (dotted_continues
      (fun _ ↦ word_scans name.word) ⟨c, cs, htext, (startsName_disjoint hc).1⟩
      (.spaced (by cases op <;> decide) (v.readable h.2)))

theorem separated_fills : (ts : List Tree) → Int64.minValue ∉ intsOf ts → Fills (separated ts)
  | [], _ => fun _ hp _ ↦ hp
  | [t], h => by
    intro ps hp hd
    simp only [intsOf, List.append_nil] at h
    simpa [separated] using (t.readable h).lexes ps hp hd
  | t :: u :: us, h => by
    intro ps hp hd
    simp only [intsOf, List.mem_append, not_or] at h
    have hrest := separated_fills (u :: us) (by simpa [intsOf] using h.2) ps hp hd
    have hblank : ∀ c ∈ (spell (separated (u :: us) ++ ps)).head?, isSpace c = false := by
      rw [separated, List.append_assoc, List.append_assoc]
      exact fun c hc ↦ ((u.readable h.2.1).head _ c hc).1
    rw [separated, List.append_assoc, List.append_assoc]
    exact (t.readable h.1).lexes _
      (lexes_mark (by decide) (fun _ ↦ rfl) ⟨blank_scans hblank, hrest⟩) (.of_cons (by decide))

end

theorem lexes (t : Tree) (h : Int64.minValue ∉ t.ints) : Lexes t.pieces := by
  have hread := (t.readable h).lexes [] trivial ⟨nofun, nofun⟩
  rwa [List.append_nil] at hread

end Tree

end Quill
