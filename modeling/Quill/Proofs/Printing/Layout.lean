import Quill.Proofs.Printing.Words
import Quill.Proofs.Token.Place

/-!
# Where the pieces stand

The tokens of a written tree with their spans, and what the grammar sees of them: every piece that
is no blank, one after the other.
-/

namespace Quill

namespace Piece

/-- The tokens of pieces of which the first starts at `p`. -/
def tokens (p : Position) : List Piece → List Token
  | [] => []
  | q :: ps => ⟨q.kind, String.ofList q.text, .ofText p q.text⟩ :: tokens (p.after q.text) ps

theorem Lexes.tokenizes {ps : List Piece} (h : Lexes ps) (p : Position) :
    Token.Tokenizes p (spell ps) (tokens p ps ++ [Token.endAt (p.after (spell ps))]) none := by
  induction ps generalizing p with
  | nil => exact .stop rfl
  | cons q ps ih =>
    obtain ⟨⟨c, cs, htext, hc, hscan⟩, hps⟩ := h
    rw [spell_cons, Position.after_append, htext, List.cons_append]
    have hrest := ih hps (p.after q.text)
    rw [htext] at hrest
    have htoken := Token.Tokenizes.token hc hscan (by rw [htext]; exact hrest)
    rw [tokens, htext, List.cons_append]
    rwa [htext] at htoken

/-- The grammar sees all but the blanks. -/
def visible : Piece → Bool
  | blank => false
  | _ => true

/-- What the grammar sees of pieces of which the first starts at `p`. -/
def cells (p : Position) : List Piece → List Grammar.Cell
  | [] => []
  | q :: ps =>
    if q.visible then ⟨q.kind, .ofText p q.text, none⟩ :: cells (p.after q.text) ps
    else cells (p.after q.text) ps

def kinds (ps : List Piece) : List Token.Kind := (ps.filter visible).map kind

@[simp] theorem kinds_append (ps qs : List Piece) : kinds (ps ++ qs) = kinds ps ++ kinds qs := by
  simp [kinds]

theorem kinds_cons {q : Piece} (h : q.visible = true) (ps : List Piece) :
    kinds (q :: ps) = q.kind :: kinds ps := by
  rw [kinds, List.filter_cons_of_pos h]
  rfl

@[simp] theorem kinds_blank (ps : List Piece) : kinds (.blank :: ps) = kinds ps := rfl

@[simp] theorem kinds_mark (m : Mark) (ps : List Piece) :
    kinds (.mark m :: ps) = .mark m :: kinds ps := rfl

@[simp] theorem kinds_word (text : String) (ps : List Piece) :
    kinds (.word text :: ps) = Token.nameKind text.toList :: kinds ps := rfl

@[simp] theorem kinds_nil : kinds [] = [] := rfl

def size (ps : List Piece) : Nat := (kinds ps).length

@[simp] theorem size_append (ps qs : List Piece) : size (ps ++ qs) = size ps + size qs := by
  simp [size]

@[simp] theorem size_blank (ps : List Piece) : size (.blank :: ps) = size ps := rfl

@[simp] theorem size_mark (m : Mark) (ps : List Piece) : size (.mark m :: ps) = size ps + 1 := rfl

theorem size_cons {q : Piece} (h : q.visible = true) (ps : List Piece) :
    size (q :: ps) = size ps + 1 := by
  rw [size, kinds_cons h]
  rfl

@[simp] theorem size_parens (ps : List Piece) : size (Tree.parens ps) = size ps + 2 := by
  rw [Tree.parens, List.cons_append, size_mark, size_append]
  rfl

@[simp] theorem size_brackets (ps : List Piece) : size (Tree.brackets ps) = size ps + 2 := by
  rw [Tree.brackets, List.cons_append, size_mark, size_append]
  rfl

theorem size_grouped (floor precedence : Nat) (ps : List Piece) :
    size ps ≤ size (Tree.grouped floor precedence ps) := by
  unfold Tree.grouped
  split <;> simp

theorem cells_kinds (p : Position) (ps : List Piece) :
    (cells p ps).map (·.kind) = kinds ps := by
  induction ps generalizing p with
  | nil => rfl
  | cons q ps ih =>
    rw [cells, kinds]
    split
    · rename_i hq
      rw [List.filter_cons_of_pos hq]
      exact congrArg (q.kind :: ·) (ih _)
    · rename_i hq
      rw [List.filter_cons_of_neg hq]
      exact ih _

/-- What the tokens of a visible piece are not. -/
structure IsPlain (k : Token.Kind) : Prop where
  whitespace : k ≠ .whitespace
  newline : k ≠ .newline
  comment : ∀ text, k ≠ .comment text
  eof : k ≠ .eof

theorem kind_isPlain {q : Piece} (h : q.visible = true) : IsPlain q.kind := by
  cases q with
  | blank => cases h
  | word text =>
    rw [kind, Token.nameKind]
    split <;> exact ⟨nofun, nofun, nofun, nofun⟩
  | _ => exact ⟨nofun, nofun, nofun, nofun⟩

theorem kinds_isPlain {ps : List Piece} {k : Token.Kind} (h : k ∈ kinds ps) : IsPlain k := by
  obtain ⟨q, hq, rfl⟩ := List.mem_map.mp h
  exact kind_isPlain (List.mem_filter.mp hq).2

end Piece

theorem Variable.visible (x : Variable) : x.piece.visible = true := by cases x <;> rfl

theorem Atom.visible (a : Atom) : a.piece.visible = true := by
  cases a with
  | bool value => cases value <;> rfl
  | var x => exact x.visible
  | _ => rfl

theorem nameKind_not_mark (text : List Char) (m : Mark) : Token.nameKind text ≠ .mark m := by
  unfold Token.nameKind
  dsimp only
  split <;> exact nofun

theorem Variable.not_mark (x : Variable) (m : Mark) : x.piece.kind ≠ .mark m := by
  cases x with
  | local_ name => exact nameKind_not_mark name.text.toList m
  | constant name => exact nofun
  | attr name => exact nofun

theorem Atom.not_mark (a : Atom) (m : Mark) : a.piece.kind ≠ .mark m := by
  cases a with
  | str _ => exact nofun
  | symbol _ => exact nofun
  | nil => exact nameKind_not_mark Keyword.nil.text.toList m
  | bool value =>
    cases value with
    | false => exact nameKind_not_mark Keyword.false_.text.toList m
    | true => exact nameKind_not_mark Keyword.true_.text.toList m
  | self => exact nameKind_not_mark Keyword.self.text.toList m
  | var x => exact x.not_mark m

theorem MethodName.visible (m : MethodName) : m.piece.visible = true := by cases m <;> rfl

namespace Grammar

open Piece

theorem cellsOnto_plain {done : List Cell} {m : Margin} {t : Token} {ts : List Token}
    (h : IsPlain t.kind) :
    cellsOnto done m (t :: ts) = cellsOnto (⟨t.kind, t.span, m.doc t.kind⟩ :: done) m.code ts := by
  rw [cellsOnto]
  split
  · exact absurd ‹_› h.whitespace
  · exact absurd ‹_› (h.comment _)
  · exact absurd ‹_› h.newline
  · rfl

theorem Margin.doc_none {m : Margin} (hm : m.comments = []) (k : Token.Kind) : m.doc k = none := by
  unfold Margin.doc
  split <;> simp [hm]

theorem cellsOnto_tokens {done : List Cell} {m : Margin} (hm : m.comments = []) (p : Position)
    (ps : List Piece) (stop : Position) :
    cellsOnto done m (tokens p ps ++ [Token.endAt stop]) =
      done.reverse ++ Piece.cells p ps ++ [⟨.eof, .point stop, none⟩] := by
  induction ps generalizing done m p with
  | nil =>
    simp [tokens, Piece.cells, cellsOnto, Token.endAt, Margin.doc]
  | cons q ps ih =>
    rw [tokens, Piece.cells, List.cons_append]
    split
    · rename_i hq
      rw [cellsOnto_plain (kind_isPlain hq), ih rfl, Margin.doc_none hm]
      simp
    · rename_i hq
      have hblank : q = .blank := by cases q <;> first | rfl | exact absurd rfl hq
      subst hblank
      rw [cellsOnto]
      exact ih hm _

theorem Cursor.ofTokens_tokens (p stop : Position) (ps : List Piece) :
    Cursor.ofTokens (Piece.tokens p ps ++ [Token.endAt stop]) =
      ⟨Piece.cells p ps, .origin, .point stop, size ps + 2⟩ := by
  have hcells : cells (tokens p ps ++ [Token.endAt stop]) =
      Piece.cells p ps ++ [⟨.eof, .point stop, none⟩] := cellsOnto_tokens rfl p ps stop
  have hkinds (c : Cell) (hc : c ∈ Piece.cells p ps) : c.kind ≠ .eof :=
    (kinds_isPlain (cells_kinds p ps ▸ List.mem_map_of_mem hc)).eof
  have hlength : (Piece.cells p ps).length = size ps := by
    rw [size, ← cells_kinds p, List.length_map]
  have hread : (Piece.cells p ps ++ [(⟨.eof, .point stop, none⟩ : Cell)]).takeWhile
      (·.kind != .eof) = Piece.cells p ps := by
    rw [List.takeWhile_append_of_pos fun c hc ↦ bne_eof_iff.mpr (hkinds c hc)]
    exact List.append_nil _
  have hnone : (Piece.cells p ps).find? (·.kind == .eof) = none := by
    refine List.find?_eq_none.mpr fun c hc heq ↦ ?_
    have hne := bne_eof_iff.mpr (hkinds c hc)
    rw [bne, heq] at hne
    cases hne
  unfold Cursor.ofTokens
  rw [hcells]
  simp only [hread, List.find?_append, hnone, List.length_append, hlength]
  rfl

end Grammar

theorem Token.ofText?_spell {ps : List Piece} (h : Piece.Lexes ps) :
    ∃ stop, Token.ofText? (String.ofList (Piece.spell ps)) =
      .ok (Piece.tokens .start ps ++ [Token.endAt stop]).toArray := by
  obtain ⟨ts, e, htext, hts⟩ := Token.ofText_tokenizes (String.ofList (Piece.spell ps))
  rw [String.toList_ofList] at hts
  obtain ⟨rfl, rfl⟩ := hts.unique (h.tokenizes .start)
  exact ⟨_, by rw [Token.ofText?, htext]⟩

end Quill
