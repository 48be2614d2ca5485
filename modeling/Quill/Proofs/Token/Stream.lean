import Quill.Proofs.Token.Scan

namespace Quill.Token

/-- The token that ends every text. -/
def endAt (p : Position) : Token := ⟨.eof, "", .point p⟩

/-- The tokens of a text that starts at `p`, and the error that ends them, if any. -/
inductive Tokenizes : Position → List Char → List Token → Option LexError → Prop
  | stop {p : Position} {text : List Char} : text.takeWhile (· != nul) = [] →
      Tokenizes p text [endAt p] none
  | fail {p : Position} {c : Char} {rest : List Char} {f : Failure} : c ≠ nul →
      scan c rest = .error f →
      Tokenizes p (c :: rest) [] (some ⟨f.fault, .ofText (p.after f.before) f.read⟩)
  | token {p : Position} {c : Char} {rest : List Char} {s : Scanned} {ts : List Token}
      {e : Option LexError} : c ≠ nul → scan c rest = .ok s →
      Tokenizes (p.after s.read) s.rest ts e →
      Tokenizes p (c :: rest) (⟨s.kind, String.ofList s.read, .ofText p s.read⟩ :: ts) e

theorem scan_isFront {c : Char} {rest : List Char} {s : Scanned} (hc : c ≠ nul)
    (h : scan c rest = .ok s) : s.IsFront c rest := (scan_takes h).isFront hc

theorem scanAll_tokenizes (done : Array Token) (p : Position) {fuel : Nat} {text : List Char}
    (hf : text.length < fuel) :
    ∃ ts e, scanAll done p fuel text = ⟨done ++ ts.toArray, e⟩ ∧ Tokenizes p text ts e := by
  induction fuel generalizing done p text with
  | zero => omega
  | succ fuel ih =>
    cases text with
    | nil => exact ⟨_, none, rfl, .stop rfl⟩
    | cons c rest =>
      unfold scanAll
      by_cases hc : c = nul
      · rw [if_pos hc]
        exact ⟨_, none, rfl, .stop (by simp [hc])⟩
      rw [if_neg hc]
      cases hs : scan c rest with
      | error f => exact ⟨[], _, by simp, .fail hc hs⟩
      | ok s =>
        have front := scan_isFront hc hs
        -- A token takes a character at least, so the rest needs less fuel.
        have hlen : s.rest.length < fuel := by
          have h := congrArg List.length front.split
          have hne := List.length_pos_iff.mpr front.read_ne_nil
          simp only [List.length_append, List.length_cons] at h hf
          omega
        obtain ⟨ts, e, heq, hts⟩ := ih (done.push ⟨s.kind, String.ofList s.read, .ofText p s.read⟩)
          (p.after s.read) hlen
        refine ⟨_, e, ?_, .token hc hs hts⟩
        dsimp only
        rw [heq]
        simp

theorem ofText_tokenizes (text : String) :
    ∃ ts e, ofText text = ⟨ts.toArray, e⟩ ∧ Tokenizes .start text.toList ts e := by
  obtain ⟨ts, e, h, hts⟩ := scanAll_tokenizes #[] .start (Nat.lt_succ_self text.toList.length)
  refine ⟨ts, e, ?_, hts⟩
  rw [ofText, h]
  simp

theorem Tokenizes.unique {p : Position} {text : List Char} {ts us : List Token}
    {e f : Option LexError} (h : Tokenizes p text ts e) (h' : Tokenizes p text us f) :
    ts = us ∧ e = f := by
  induction h generalizing us with
  | stop hs =>
    cases h' with
    | stop _ => exact ⟨rfl, rfl⟩
    | fail hc _ => simp [hc] at hs
    | token hc _ _ => simp [hc] at hs
  | fail hc hf =>
    cases h' with
    | stop hs => simp [hc] at hs
    | fail _ hf' =>
      rw [hf] at hf'
      cases hf'
      exact ⟨rfl, rfl⟩
    | token _ hs _ =>
      rw [hf] at hs
      cases hs
  | token hc hs _ ih =>
    cases h' with
    | stop hs => simp [hc] at hs
    | fail _ hf =>
      rw [hs] at hf
      cases hf
    | token _ hs' hts =>
      rw [hs] at hs'
      cases hs'
      obtain ⟨rfl, rfl⟩ := ih hts
      exact ⟨rfl, rfl⟩

theorem ofText?_iff {text : String} {ts : Array Token} :
    ofText? text = .ok ts ↔ Tokenizes .start text.toList ts.toList none := by
  obtain ⟨us, e, htext, hus⟩ := ofText_tokenizes text
  rw [ofText?, htext]
  constructor
  · intro h
    cases e with
    | some e => cases h
    | none =>
      cases h
      exact hus
  · intro h
    obtain ⟨rfl, rfl⟩ := hus.unique h
    rfl

def Ended (ts : List Token) : Prop :=
  ∃ front p, ts = front ++ [endAt p] ∧ ∀ t ∈ front, t.kind ≠ .eof

theorem Tokenizes.ended {p : Position} {text : List Char} {ts : List Token} {e : Option LexError}
    (h : Tokenizes p text ts e) (he : e = none) : Ended ts := by
  induction h with
  | @stop p => exact ⟨[], p, rfl, nofun⟩
  | fail => cases he
  | token hc hs _ ih =>
    obtain ⟨front, q, rfl, hfront⟩ := ih he
    exact ⟨_ :: front, q, rfl, List.forall_mem_cons.mpr ⟨(scan_isFront hc hs).kind, hfront⟩⟩

theorem ofText?_ended {text : String} {ts : Array Token} (h : ofText? text = .ok ts) :
    Ended ts.toList := (ofText?_iff.mp h).ended rfl

def spelled (ts : List Token) : List Char := ts.flatMap (·.lexeme.toList)

@[simp] theorem spelled_nil : spelled [] = [] := rfl

@[simp] theorem spelled_cons (t : Token) (ts : List Token) :
    spelled (t :: ts) = t.lexeme.toList ++ spelled ts := rfl

@[simp] theorem spelled_append (ts us : List Token) :
    spelled (ts ++ us) = spelled ts ++ spelled us := List.flatMap_append

theorem Tokenizes.at_token {p : Position} {text : List Char} {before after : List Token} {t : Token}
    {e : Option LexError} (h : Tokenizes p text (before ++ t :: after) e) :
    ∃ rest, text = spelled before ++ rest ∧
      Tokenizes (p.after (spelled before)) rest (t :: after) e := by
  generalize hts : before ++ t :: after = ts at h
  induction h generalizing before with
  | @stop p text hs =>
    obtain ⟨rfl, rfl, rfl⟩ : before = [] ∧ t = endAt p ∧ after = [] := by
      cases before with
      | nil => simpa using hts
      | cons u before => simp at hts
    exact ⟨text, rfl, .stop hs⟩
  | fail => simp at hts
  | @token p c rest s ts e hc hs htokens ih =>
    cases before with
    | nil =>
      obtain ⟨rfl, rfl⟩ := List.cons.inj hts
      exact ⟨c :: rest, rfl, .token hc hs htokens⟩
    | cons u before =>
      obtain ⟨rfl, htail⟩ := List.cons.inj hts
      obtain ⟨more, hmore, hat⟩ := ih htail
      rw [spelled_cons, String.toList_ofList, Position.after_append]
      refine ⟨more, ?_, hat⟩
      rw [List.append_assoc, ← hmore, (scan_isFront hc hs).split]

/-- What comes after the last token of a text. -/
inductive Remains (p : Position) (rest : List Char) : List Token → Option LexError → Prop
  | stop : rest.takeWhile (· != nul) = [] → Remains p rest [endAt p] none
  | fail {c : Char} {more : List Char} {f : Failure} : rest = c :: more → c ≠ nul →
      scan c more = .error f →
      Remains p rest [] (some ⟨f.fault, .ofText (p.after f.before) f.read⟩)

def IsScanned (p : Position) (t : Token) : Prop :=
  ∃ c rest s, c ≠ nul ∧ scan c rest = .ok s ∧ t = ⟨s.kind, String.ofList s.read, .ofText p s.read⟩

theorem Tokenizes.split {p : Position} {text : List Char} {ts : List Token} {e : Option LexError}
    (h : Tokenizes p text ts e) :
    ∃ tokens rest tail, ts = tokens ++ tail ∧ text = spelled tokens ++ rest ∧
      nul ∉ spelled tokens ∧ Remains (p.after (spelled tokens)) rest tail e ∧
      ∀ before t after, tokens = before ++ t :: after → IsScanned (p.after (spelled before)) t := by
  induction h with
  | stop hs => exact ⟨[], _, _, rfl, rfl, List.not_mem_nil, .stop hs, by simp⟩
  | fail hc hf => exact ⟨[], _, _, rfl, rfl, List.not_mem_nil, .fail rfl hc hf, by simp⟩
  | @token p c rest s ts e hc hs _ ih =>
    obtain ⟨tokens, rest', tail, rfl, hrest, hnul, hr, hscanned⟩ := ih
    have front := scan_isFront hc hs
    refine ⟨_ :: tokens, rest', tail, rfl, ?_, ?_, ?_, ?_⟩
    · rw [spelled_cons, String.toList_ofList, List.append_assoc, ← hrest, front.split]
    · rw [spelled_cons, String.toList_ofList, List.mem_append, not_or]
      exact ⟨front.nul, hnul⟩
    · rwa [spelled_cons, String.toList_ofList, Position.after_append]
    · intro before t after heq
      cases before with
      | nil =>
        cases heq
        exact ⟨c, rest, s, hc, hs, rfl⟩
      | cons t' before =>
        cases heq
        rw [spelled_cons, String.toList_ofList, Position.after_append]
        exact hscanned before t after rfl

namespace IsScanned

variable {p : Position} {t : Token}

theorem kind_ne_eof (h : IsScanned p t) : t.kind ≠ .eof := by
  obtain ⟨c, rest, s, hc, hs, rfl⟩ := h
  exact (scan_isFront hc hs).kind

theorem lexeme_ne_empty (h : IsScanned p t) : t.lexeme ≠ "" := by
  obtain ⟨c, rest, s, hc, hs, rfl⟩ := h
  intro hl
  have hread := congrArg String.toList hl
  rw [String.toList_ofList] at hread
  exact (scan_isFront hc hs).read_ne_nil hread

theorem name_of_marked (h : IsScanned p t) {name : String}
    (hk : t.kind = .attr name ∨ t.kind = .symbol name) :
    ∃ mark : Char, mark.utf8Size = 1 ∧ t.lexeme = String.singleton mark ++ name := by
  obtain ⟨c, rest, s, hc, hs, rfl⟩ := h
  have marked {n : Nat} (hm : c.utf8Size = 1)
      (hname : markedName ((c :: rest).take (1 + n)) = name) :
      ∃ mark : Char, mark.utf8Size = 1 ∧
        String.ofList ((c :: rest).take (1 + n)) = String.singleton mark ++ name := by
    refine ⟨c, hm, String.toList_injective ?_⟩
    rw [← hname, markedName, Nat.add_comm, List.take_succ_cons]
    simp
  cases scan_takes hs with
  | attr ha hn =>
    obtain hk | hk := hk
    · subst ha
      exact marked (by decide) (Kind.attr.inj hk)
    · cases hk
  | symbol ha hn =>
    obtain hk | hk := hk
    · cases hk
    · subst ha
      exact marked (by decide) (Kind.symbol.inj hk)
  | name hn =>
    have hne (read : List Char) : nameKind read ≠ .attr name ∧ nameKind read ≠ .symbol name := by
      unfold nameKind
      dsimp only
      split <;> exact ⟨nofun, nofun⟩
    exact absurd hk (not_or.mpr (hne _))
  | _ => obtain hk | hk := hk <;> cases hk

end IsScanned

/-- The bytes from `i` up to `j` are those of `piece`, and a character ends or starts at both. -/
def IsSlice (text : String) (i j : Nat) (piece : String) : Prop :=
  (⟨i⟩ : String.Pos.Raw).IsValid text ∧ (⟨j⟩ : String.Pos.Raw).IsValid text ∧
    text.toByteArray.extract i j = piece.toByteArray

theorem isSlice_append (a b c : String) :
    IsSlice (a ++ b ++ c) a.utf8ByteSize (a ++ b).utf8ByteSize b := by
  refine ⟨?_, ?_, ?_⟩
  · exact String.Pos.Raw.isValid_iff_exists_append.mpr ⟨a, b ++ c, String.append_assoc, rfl⟩
  · exact String.Pos.Raw.isValid_iff_exists_append.mpr ⟨a ++ b, c, rfl, rfl⟩
  · have hskip := ByteArray.extract_append_size_add (a := a.toByteArray)
      (b := b.toByteArray ++ c.toByteArray) (i := 0) (j := b.utf8ByteSize)
    rw [String.append_assoc, String.toByteArray_append, String.toByteArray_append,
      String.utf8ByteSize_append]
    exact hskip.trans (ByteArray.extract_append_eq_left rfl)

def bytes (ts : List Token) : Nat := (String.ofList (spelled ts)).utf8ByteSize

theorem bytes_append (ts us : List Token) : bytes (ts ++ us) = bytes ts + bytes us := by
  rw [bytes, spelled_append, String.ofList_append, String.utf8ByteSize_append]
  rfl

theorem bytes_singleton (t : Token) : bytes [t] = t.lexeme.utf8ByteSize := by
  rw [bytes, spelled_cons, spelled_nil, List.append_nil, String.ofList_toList]

theorem isSlice_of_toList {text piece : String} {before after : List Char}
    (h : text.toList = before ++ piece.toList ++ after) :
    IsSlice text (String.ofList before).utf8ByteSize
      ((String.ofList before).utf8ByteSize + piece.utf8ByteSize) piece := by
  have htext : text = String.ofList before ++ piece ++ String.ofList after := by
    apply String.toList_injective
    simpa using h
  rw [htext, ← String.utf8ByteSize_append]
  exact isSlice_append _ _ _

theorem takeWhile_nul {front rest : List Char} (hf : nul ∉ front)
    (hr : rest.takeWhile (· != nul) = []) : (front ++ rest).takeWhile (· != nul) = front := by
  rw [List.takeWhile_append_of_pos, hr, List.append_nil]
  intro c hc
  simp only [bne_iff_ne, ne_eq]
  rintro rfl
  exact hf hc

/-- The tokens of a text are finitely many; the end follows them, or a single error. What they were
read from is the text up to its first NUL, or up to a place where no token can be read. It is cut
between characters, as is what a token carries of it. -/
theorem lexing_is_lossless (text : String) :
    ∃ tokens : List Token,
      (∀ t ∈ tokens, t.kind ≠ .eof ∧ t.lexeme ≠ "") ∧
      (∀ before t after, tokens = before ++ t :: after →
        IsSlice text (bytes before) (bytes (before ++ [t])) t.lexeme ∧
        ∀ name, t.kind = .attr name ∨ t.kind = .symbol name →
          IsSlice text (bytes before + 1) (bytes (before ++ [t])) name) ∧
      ((∃ p, ofText text = ⟨(tokens ++ [endAt p]).toArray, none⟩ ∧
          spelled tokens = text.toList.takeWhile (· != nul)) ∨
        ∃ e c rest f, ofText text = ⟨tokens.toArray, some e⟩ ∧
          text.toList = spelled tokens ++ c :: rest ∧ nul ∉ spelled tokens ∧ c ≠ nul ∧
          scan c rest = .error f ∧ e.fault = f.fault ∧
          IsSlice text (bytes tokens) text.utf8ByteSize (String.ofList (c :: rest))) := by
  obtain ⟨ts, e, htext, hts⟩ := ofText_tokenizes text
  obtain ⟨tokens, rest, tail, rfl, hsplit, hnul, hremains, hscanned⟩ := hts.split
  refine ⟨tokens, fun t ht ↦ ?_, fun before t after heq ↦ ?_, ?_⟩
  · obtain ⟨before, after, heq⟩ := List.append_of_mem ht
    have h := hscanned before t after heq
    exact ⟨h.kind_ne_eof, h.lexeme_ne_empty⟩
  · have hpiece : text.toList = spelled before ++ t.lexeme.toList ++ (spelled after ++ rest) := by
      rw [hsplit, heq]
      simp
    rw [bytes_append, bytes_singleton]
    refine ⟨isSlice_of_toList hpiece, fun name hk ↦ ?_⟩
    -- The mark in front of a name is one byte, so the name begins one byte further on.
    obtain ⟨mark, hmark, hlexeme⟩ := (hscanned before t after heq).name_of_marked hk
    have hname : text.toList = (spelled before ++ [mark]) ++ name.toList ++
        (spelled after ++ rest) := by
      rw [hpiece, hlexeme]
      simp
    have hsize : (String.ofList (spelled before ++ [mark])).utf8ByteSize = bytes before + 1 := by
      rw [String.ofList_append, String.utf8ByteSize_append, bytes, ← hmark]
      simp
    have hstop : bytes before + 1 + name.utf8ByteSize = bytes before + t.lexeme.utf8ByteSize := by
      rw [hlexeme, String.utf8ByteSize_append, String.utf8ByteSize_singleton, hmark, Nat.add_assoc]
    have hslice := isSlice_of_toList hname
    rwa [hsize, hstop] at hslice
  · cases hremains with
    | stop hstop =>
      exact .inl ⟨_, htext, by rw [hsplit, takeWhile_nul hnul hstop]⟩
    | @fail c more f hrest hc hf =>
      subst hrest
      refine .inr ⟨_, c, more, f, by simpa using htext, hsplit, hnul, hc, hf, rfl, ?_⟩
      have hlast : text.toList = spelled tokens ++ (String.ofList (c :: more)).toList ++ [] := by
        simpa using hsplit
      have hsize : text.utf8ByteSize =
          bytes tokens + (String.ofList (c :: more)).utf8ByteSize := by
        rw [bytes, ← String.utf8ByteSize_append, ← String.ofList_append, ← hsplit,
          String.ofList_toList]
      rw [hsize]
      exact isSlice_of_toList hlast

end Quill.Token
