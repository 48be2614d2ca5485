import Quill.Proofs.Grammar.Readers
import Quill.Proofs.Token.Stream

/-!
# Spaces do not matter

How the words of a program are spaced is seen in spans and documentation only, but for a minus that
may touch a number, and the token at the end of the file changes nothing. Main statement:
`spacing_irrelevant`.
-/

namespace Quill

namespace Token

/-- White space, comments and the end of the file are not among the words of a program. -/
def isWord (t : Token) : Bool :=
  match t.kind with
  | .whitespace | .comment _ | .eof => false
  | _ => true

def words (ts : List Token) : List Token := ts.filter isWord

def isMinus : Kind → Bool
  | .mark .minus => true
  | _ => false

def isNumber : Kind → Bool
  | .int _ | .float _ => true
  | _ => false

/-- Nothing is between the two. -/
def touches (t u : Token) : Bool := u.span.first = t.span.last.nextColumn

/-- For every minus that a number follows, whether the two touch. -/
def minusTouches : List Token → List Bool
  | t :: u :: rest =>
    if isMinus t.kind && isNumber u.kind then t.touches u :: minusTouches (u :: rest)
    else minusTouches (u :: rest)
  | _ => []

end Token

namespace Grammar

open Parse

theorem isMinus_eq (k : Token.Kind) : (prefixOp? k == some .neg) = Token.isMinus k := by
  cases k with
  | mark m => cases m <;> rfl
  | _ => rfl

theorem isNumber_eq (k : Token.Kind) : (negatedLiteral k).isSome = Token.isNumber k := by
  cases k <;> rfl

namespace Cell

/-- A token without documentation. -/
def ofToken (t : Token) : Cell := ⟨t.kind, t.span, none⟩

def undocumented (c : Cell) : Cell := { c with doc := none }

theorem folds_ofToken (t u : Token) (rest : List Cell) :
    (ofToken t).folds (ofToken u :: rest) =
      (Token.isMinus t.kind && Token.isNumber u.kind && t.touches u) := by
  rw [folds, ← isMinus_eq, ← isNumber_eq]
  rfl

end Cell

theorem sight_undocumented (cs : List Cell) :
    sight .blank (cs.map Cell.undocumented) = sight .blank cs := by
  induction cs with
  | nil => rfl
  | cons c cs ih =>
    have hfolds : c.undocumented.folds (cs.map Cell.undocumented) = c.folds cs := by
      cases cs <;> rfl
    rw [List.map_cons, sight, sight, ih, hfolds]
    rfl

theorem sight_ofToken {ts us : List Token} (hkinds : ts.map (·.kind) = us.map (·.kind))
    (htouch : Token.minusTouches ts = Token.minusTouches us) :
    sight .blank (ts.map Cell.ofToken) = sight .blank (us.map Cell.ofToken) := by
  induction ts generalizing us with
  | nil =>
    cases us with
    | nil => rfl
    | cons u us => cases hkinds
  | cons t ts ih =>
    cases us with
    | nil => cases hkinds
    | cons u us =>
      simp only [List.map_cons, List.cons.injEq] at hkinds
      obtain ⟨hkind, hkinds⟩ := hkinds
      -- Whether a minus touches depends on the next token, so both lists are opened once more.
      have hrest : (Cell.ofToken t).folds (ts.map Cell.ofToken) =
          (Cell.ofToken u).folds (us.map Cell.ofToken) ∧
          Token.minusTouches ts = Token.minusTouches us := by
        cases ts with
        | nil => cases us with
          | nil => exact ⟨rfl, rfl⟩
          | cons u' us => cases hkinds
        | cons t' ts => cases us with
          | nil => cases hkinds
          | cons u' us =>
            have hkind' : t'.kind = u'.kind := (List.cons.inj hkinds).1
            rw [List.map_cons, List.map_cons, Cell.folds_ofToken, Cell.folds_ofToken]
            rw [Token.minusTouches, Token.minusTouches] at htouch
            rw [← hkind, ← hkind'] at htouch ⊢
            cases hboth : Token.isMinus t.kind && Token.isNumber t'.kind with
            | false =>
              rw [hboth] at htouch
              exact ⟨rfl, htouch⟩
            | true =>
              rw [hboth] at htouch
              obtain ⟨hhead, htail⟩ := List.cons.inj htouch
              rw [hhead]
              exact ⟨rfl, htail⟩
      rw [List.map_cons, List.map_cons, sight, sight, ih hkinds hrest.2, hrest.1]
      exact congrArg (fun k ↦ (k, _) :: _) hkind

theorem isWord_cases (t : Token) :
    t.isWord = (t.kind != .eof) ∨ t.kind = .whitespace ∨ ∃ text, t.kind = .comment text := by
  obtain ⟨kind, _, _⟩ := t
  cases kind with
  | whitespace => exact .inr (.inl rfl)
  | comment text => exact .inr (.inr ⟨text, rfl⟩)
  | _ => exact .inl rfl

theorem cellsOnto_words (done : List Cell) (m : Margin) (ts : List Token) :
    ((cellsOnto done m ts).filter (·.kind != .eof)).map Cell.undocumented =
      (done.reverse.filter (·.kind != .eof)).map Cell.undocumented ++
        (Token.words ts).map Cell.ofToken := by
  induction ts generalizing done m with
  | nil => rw [cellsOnto, Token.words, List.filter_nil, List.map_nil, List.append_nil]
  | cons t ts ih =>
    have skipped (hw : t.isWord = false) : Token.words (t :: ts) = Token.words ts :=
      List.filter_cons_of_neg (by rw [hw]; exact Bool.false_ne_true)
    -- A token that is kept is the next word, unless it is the end of the file.
    have pushed (doc : Option String) (hw : t.isWord = (t.kind != .eof)) :
        ((⟨t.kind, t.span, doc⟩ :: done : List Cell).reverse.filter (·.kind != .eof)).map
            Cell.undocumented ++ (Token.words ts).map Cell.ofToken =
          (done.reverse.filter (·.kind != .eof)).map Cell.undocumented ++
            (Token.words (t :: ts)).map Cell.ofToken := by
      rw [List.reverse_cons, List.filter_append, List.map_append, List.append_assoc]
      congr 1
      cases hk : t.kind != .eof with
      | true =>
        have taken : Token.words (t :: ts) = t :: Token.words ts :=
          List.filter_cons_of_pos (hw.trans hk)
        rw [taken]
        simp only [List.filter_cons, hk, if_true, List.filter_nil]
        rfl
      | false =>
        rw [skipped (hw.trans hk)]
        simp only [List.filter_cons, hk, Bool.false_eq_true, if_false, List.filter_nil]
        rfl
    rw [cellsOnto]
    obtain hw | hk | ⟨text, hk⟩ := isWord_cases t
    · split
      · rename_i hk
        rw [ih, skipped (by rw [Token.isWord, hk])]
      · rename_i text hk
        rw [ih, skipped (by rw [Token.isWord, hk])]
      · rw [ih, pushed none hw]
      · rw [ih, pushed _ hw]
    · rw [hk]
      dsimp only
      rw [ih, skipped (by rw [Token.isWord, hk])]
    · rw [hk]
      dsimp only
      rw [ih, skipped (by rw [Token.isWord, hk])]

theorem cellsOnto_eof (done : List Cell) (m : Margin) (ts : List Token) {t : Token}
    (ht : t.kind = .eof) :
    cellsOnto done m (ts ++ [t]) = cellsOnto done m ts ++ [⟨.eof, t.span, none⟩] := by
  induction ts generalizing done m with
  | nil =>
    obtain ⟨_, _, _⟩ := t
    subst ht
    exact List.reverse_cons
  | cons u us ih =>
    rw [List.cons_append, cellsOnto, cellsOnto]
    split <;> exact ih _ _

theorem Cursor.rest_of_ended {ts : List Token} (h : Token.Ended ts) :
    (Cursor.ofTokens ts).rest = (cells ts).filter (·.kind != .eof) := by
  obtain ⟨front, p, rfl, hfront⟩ := h
  have hcells : cells (front ++ [Token.endAt p]) = cells front ++ [⟨.eof, .point p, none⟩] :=
    cellsOnto_eof [] _ front rfl
  have hall : ∀ c ∈ cells front, (c.kind != .eof) = true := fun c hc ↦
    bne_eof_iff.mpr (kind_of_mem_cells (P := (· ≠ .eof)) hfront hc)
  change (cells (front ++ [Token.endAt p])).takeWhile _ = _
  rw [hcells, List.takeWhile_append_of_pos hall, List.filter_append,
    List.filter_eq_self.mpr hall]
  rfl

theorem Cursor.rest_words {ts : List Token} (h : Token.Ended ts) :
    (Cursor.ofTokens ts).rest.map Cell.undocumented = (Token.words ts).map Cell.ofToken := by
  rw [Cursor.rest_of_ended h]
  exact cellsOnto_words [] .empty ts

theorem Cursor.ofTokens_alike {ts us : List Token} (hts : Token.Ended ts) (hus : Token.Ended us)
    (hkinds : (Token.words ts).map (·.kind) = (Token.words us).map (·.kind))
    (htouch : Token.minusTouches (Token.words ts) = Token.minusTouches (Token.words us)) :
    (Cursor.ofTokens ts).Alike .blank (Cursor.ofTokens us) := by
  refine .of_rest ?_ rfl (Cursor.ofTokens_limit ts) (Cursor.ofTokens_limit us)
  rw [← sight_undocumented, Cursor.rest_words hts, sight_ofToken hkinds htouch,
    ← Cursor.rest_words hus, sight_undocumented]

theorem Cursor.ofTokens_eof (ts : List Token) {t : Token} (ht : t.kind = .eof) :
    (Cursor.ofTokens (ts ++ [t])).Alike .full (Cursor.ofTokens ts) := by
  have hcells : cells (ts ++ [t]) = cells ts ++ [⟨.eof, t.span, none⟩] := cellsOnto_eof [] _ ts ht
  have hrest : (Cursor.ofTokens (ts ++ [t])).rest = (Cursor.ofTokens ts).rest := by
    change (cells (ts ++ [t])).takeWhile _ = (cells ts).takeWhile _
    rw [hcells, takeWhile_concat_eof _ rfl]
  exact .of_rest (congrArg _ hrest) rfl (Cursor.ofTokens_limit _) (Cursor.ofTokens_limit ts)

theorem ofTokens?_same {v : View} {ts us : List Token}
    (h : (Cursor.ofTokens ts).Alike v (Cursor.ofTokens us)) :
    SameOutcome (fun p q ↦ v.exprs p.body = v.exprs q.body) (Program.ofTokens? ts)
      (Program.ofTokens? us) := by
  have hagrees : Agrees v (Cursor.ofTokens ts).unread.length (fun _ ↦ True) _ _ program program :=
    program_agrees
  have hprogram := hagrees _ _ h (Nat.le_refl _) trivial
  unfold Program.ofTokens?
  generalize program (Cursor.ofTokens ts) = x, program (Cursor.ofTokens us) = y at hprogram
  cases hprogram with
  | ok h => exact .ok h.result
  | error he hf _ => exact .error he hf

end Grammar

/-- Two texts with the same words that agree on which minus touches the number after it are the same
program but for spans and documentation, or are no programs in the same way. The token at the end of
the file may be missing. -/
theorem spacing_irrelevant :
    (∀ (a b : String) (ts us : Array Token), Token.ofText? a = .ok ts → Token.ofText? b = .ok us →
      (Token.words ts.toList).map (·.kind) = (Token.words us.toList).map (·.kind) →
      Token.minusTouches (Token.words ts.toList) = Token.minusTouches (Token.words us.toList) →
      (∃ p q, Program.ofText? a = .ok p ∧ Program.ofText? b = .ok q ∧
        Grammar.View.blank.exprs p.body = Grammar.View.blank.exprs q.body) ∨
      ∃ e f, Program.ofText? a = .error (.parse e) ∧ Program.ofText? b = .error (.parse f) ∧
        e.expected = f.expected ∧ e.found = f.found) ∧
    ∀ (ts : List Token) (t : Token), t.kind = .eof →
      Grammar.SameOutcome (fun p q ↦ p.body = q.body) (Program.ofTokens? (ts ++ [t]))
        (Program.ofTokens? ts) := by
  refine ⟨fun a b ts us ha hb hkinds htouch ↦ ?_, fun ts t ht ↦ ?_⟩
  · have hsame := Grammar.ofTokens?_same (Grammar.Cursor.ofTokens_alike
      (Token.ofText?_ended ha) (Token.ofText?_ended hb) hkinds htouch)
    unfold Program.ofText?
    rw [ha, hb]
    dsimp only
    generalize Program.ofTokens? ts.toList = x, Program.ofTokens? us.toList = y at hsame
    cases hsame with
    | ok h => exact .inl ⟨_, _, rfl, rfl, h⟩
    | error he hf => exact .inr ⟨_, _, rfl, rfl, he, hf⟩
  · refine (Grammar.ofTokens?_same (Grammar.Cursor.ofTokens_eof ts ht)).mono fun p q h ↦ ?_
    rwa [Grammar.View.exprs_full, Grammar.View.exprs_full] at h

theorem sum_spaced :
    ∃ p q, Program.ofText? "-1+2" = .ok p ∧ Program.ofText? "-1 + 2 # one" = .ok q ∧
      Grammar.View.blank.exprs p.body = Grammar.View.blank.exprs q.body := by
  obtain h | ⟨e, f, h, -⟩ := spacing_irrelevant.1 "-1+2" "-1 + 2 # one" _ _ rfl rfl rfl rfl
  · exact h
  · have hok : (Program.ofText? "-1+2").toBool = true := by decide +kernel
    rw [h] at hok
    cases hok

end Quill
