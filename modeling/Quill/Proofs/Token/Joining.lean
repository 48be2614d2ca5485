import Quill.Proofs.Token.Lookahead
import Quill.Proofs.Token.Place

/-!
# Texts one after the other

Main statement: `lexing_is_compositional`. After the end of a line a text has the tokens that it has
by itself, further down.
-/

namespace Quill

def Position.down (n : Nat) (p : Position) : Position := ⟨p.line + n, p.column⟩

def Span.down (n : Nat) (s : Span) : Span := ⟨s.first.down n, s.last.down n⟩

def Token.down (n : Nat) (t : Token) : Token := { t with span := t.span.down n }

def LexError.down (n : Nat) (e : LexError) : LexError := { e with span := e.span.down n }

namespace Position

variable {n : Nat} {p : Position}

theorem next_down (c : Char) : (p.down n).next c = (p.next c).down n := by
  unfold next down
  split
  · simp [Nat.add_right_comm]
  · rfl

theorem after_down (text : List Char) : (p.down n).after text = (p.after text).down n := by
  induction text generalizing p with
  | nil => rfl
  | cons c text ih => rw [after_cons, after_cons, next_down, ih]

theorem start_after_newline {text : List Char} (h : text.getLast? = some '\n') :
    start.after text = start.down (text.count '\n') := by
  obtain ⟨front, rfl⟩ := List.getLast?_eq_some_iff.mp h
  rw [start_after, following, lastLine_newline, down, start, Nat.add_comm]
  rfl

end Position

theorem Span.ofText_down {n : Nat} {p : Position} (read : List Char) :
    Span.ofText (p.down n) read = (Span.ofText p read).down n := by
  rw [ofText, Position.after_down]
  rfl

namespace Token

theorem Tokenizes.down {p : Position} {text : List Char} {ts : List Token} {e : Option LexError}
    (h : Tokenizes p text ts e) (n : Nat) :
    Tokenizes (p.down n) text (ts.map (·.down n)) (e.map (·.down n)) := by
  induction h with
  | stop hs => exact .stop hs
  | @fail p c rest f hc hf =>
    have hfail := Tokenizes.fail (p := p.down n) hc hf
    rwa [Position.after_down, Span.ofText_down] at hfail
  | @token p c rest s ts e hc hs _ ih =>
    rw [← Position.after_down] at ih
    have htoken := Tokenizes.token hc hs ih
    rwa [Span.ofText_down] at htoken

section

variable {c : Char} {rest : List Char} {s : Scanned}

theorem endsLine_of_head {text : List Char} (h : text.head?.any (· != '\n') = false) :
    EndsLine text := fun d hd ↦ .inl (by rw [hd] at h; simpa using h)

theorem scan_join {t : List Char} (hc : c ≠ nul) (hlast : (c :: rest).getLast? = some '\n')
    (h : scan c rest = .ok s) : scan c (rest ++ t) = .ok (s.followedBy t) := by
  -- A run of characters cannot go on into the other text: it would have the line feed in it.
  have run {q : Char → Bool} {front back : List Char} (hq : q '\n' = false)
      (ht : c :: rest = front ++ back) (hf : ∀ d ∈ front, q d = true)
      (hb : back.head?.any q = false) : (back ++ t).head?.any q = false := by
    cases back with
    | nil =>
      rw [ht, List.append_nil] at hlast
      have hmem := hf _ (List.mem_of_getLast? hlast)
      rw [hq] at hmem
      cases hmem
    | cons d back => exact hb
  by_cases hn : c = '\n'
  · subst hn
    cases h
    rfl
  by_cases hspace : isSpace c = true
  · obtain ⟨front, back, ht, hf, hb⟩ := run_split isSpace (c :: rest)
    rw [scan_blank ht hspace hf hb] at h
    cases h
    refine scan_blank ?_ hspace hf (run rfl ht hf hb)
    rw [← List.append_assoc, ← ht, List.cons_append]
  by_cases hhash : c = '#'
  · subst hhash
    obtain ⟨front, back, ht, hf, hb⟩ := run_split (fun d ↦ d != '\n' && d != nul) ('#' :: rest)
    rw [scan_comment ht hf hb] at h
    cases h
    refine scan_comment ?_ hf (run rfl ht hf hb)
    rw [← List.append_assoc, ← ht, List.cons_append]
  by_cases hquote : c = '"' ∨ c = '\''
  · have hrest : c :: rest = c :: (s.read.tail ++ s.rest) := by
      obtain ⟨inner, hread⟩ := List.head?_eq_some_iff.mp (scan_isFront hc h).starts
      rw [← (scan_isFront hc h).split, hread]
      rfl
    rw [(List.cons.inj hrest).2, List.append_assoc]
    exact scan_string hquote h (s.rest ++ t)
  -- Any other token is decided on the first line, which both texts have in common.
  · obtain ⟨line, more, rfl, hline, hmore⟩ := run_split (· != '\n') rest
    have hplain : StartsPlainly c := by
      rw [not_or] at hquote
      simp only [isSpace, Bool.or_eq_true, beq_iff_eq, not_or] at hspace
      simp [StartsPlainly, hn, hspace, hhash, hquote]
    have hends : (more ++ t).head?.any (· != '\n') = false :=
      run rfl rfl (List.forall_mem_cons.mpr ⟨by simpa using hn, hline⟩) hmore
    rw [scan_append hplain (endsLine_of_head hmore)] at h
    rw [List.append_assoc, scan_append hplain (endsLine_of_head hends)]
    cases hscan : scan c line with
    | error f => rw [hscan] at h; cases h
    | ok s' =>
      rw [hscan] at h
      cases h
      change Except.ok (s'.followedBy (more ++ t)) = Except.ok ⟨_, _, s'.rest ++ more ++ t⟩
      rw [List.append_assoc]
      rfl

/-- A text that ends with a line comes before any other text with all its tokens but the last. -/
theorem Tokenizes.append {p : Position} {s t : List Char} {ts us : List Token}
    {e e' : Option LexError} (h : Tokenizes p s ts e) (he : e = none) (hnul : nul ∉ s)
    (hlast : ∀ c ∈ s.getLast?, c = '\n') (ht : Tokenizes (p.after s) t us e') :
    ∃ front, ts = front ++ [endAt (p.after s)] ∧ (∀ t ∈ front, t.kind ≠ .eof) ∧
      Tokenizes p (s ++ t) (front ++ us) e' := by
  induction h with
  | @stop p s hs =>
    have hnil : s = [] := by
      cases s with
      | nil => rfl
      | cons c s =>
        have hc : c ≠ nul := fun hc ↦ hnul (hc ▸ List.mem_cons_self)
        simp [hc] at hs
    subst hnil
    exact ⟨[], rfl, nofun, ht⟩
  | fail => cases he
  | @token p c rest s ts e hc hs _ ih =>
    have front := scan_isFront hc hs
    have hnewline : (c :: rest).getLast? = some '\n' := by
      obtain ⟨d, hd⟩ :=
        Option.isSome_iff_exists.mp (List.getLast?_isSome.mpr (List.cons_ne_nil c rest))
      rw [hd, hlast d hd]
    rw [← front.split, Position.after_append] at ht ⊢
    rw [← front.split] at hlast hnul
    obtain ⟨tokens, rfl, hkinds, htokens⟩ := ih he (fun hm ↦ hnul (List.mem_append_right _ hm))
      (fun d hd ↦ hlast d (by rw [List.getLast?_append, hd]; rfl)) ht
    refine ⟨_ :: tokens, rfl, List.forall_mem_cons.mpr ⟨front.kind, hkinds⟩, ?_⟩
    rw [front.split]
    exact .token (s := s.followedBy t) hc (scan_join hc hnewline hs) htokens

end

/-- A text of whole lines and any other text have together the tokens of the lines without the end,
and then those of the other text, as many lines further down as there are. If the other text has an
error, so has the whole, as many lines further down. -/
theorem lexing_is_compositional {s : String} {tokens : Array Token} (h : ofText? s = .ok tokens)
    (hnul : nul ∉ s.toList) (hlast : s.toList.getLast? = some '\n') :
    ∃ (front : Array Token) (p : Position), tokens = front.push (endAt p) ∧
      (∀ t ∈ front, t.kind ≠ .eof) ∧ ∀ t : String,
        ofText (s ++ t) = ⟨front ++ (ofText t).tokens.map (·.down (s.toList.count '\n')),
          (ofText t).error.map (·.down (s.toList.count '\n'))⟩ ∧
        (∀ us, ofText? t = .ok us →
          ofText? (s ++ t) = .ok (front ++ us.map (·.down (s.toList.count '\n')))) ∧
        ∀ e, ofText? t = .error e →
          ofText? (s ++ t) = .error (e.down (s.toList.count '\n')) := by
  have hs := ofText?_iff.mp h
  have hafter := Position.start_after_newline hlast
  have last : ∀ c ∈ s.toList.getLast?, c = '\n' := fun c hc ↦ by
    rw [hlast] at hc
    exact (Option.some.inj hc).symm
  have nothing : Tokenizes (Position.start.after s.toList) [] [endAt (.after _ s.toList)] none :=
    .stop rfl
  obtain ⟨front, htokens, hkinds, -⟩ := hs.append rfl hnul last nothing
  have joined (t : String) : ofText (s ++ t) =
      ⟨front.toArray ++ (ofText t).tokens.map (·.down (s.toList.count '\n')),
        (ofText t).error.map (·.down (s.toList.count '\n'))⟩ := by
    obtain ⟨us, e, ht, hus⟩ := ofText_tokenizes t
    obtain ⟨ws, f, hst, hws⟩ := ofText_tokenizes (s ++ t)
    obtain ⟨front', htokens', -, hjoined⟩ := hs.append rfl hnul last (hafter ▸ hus.down _)
    have hfront : front' = front := List.append_cancel_right (htokens'.symm.trans htokens)
    rw [String.toList_append] at hws
    obtain ⟨rfl, rfl⟩ := hws.unique hjoined
    rw [hst, ht, hfront]
    simp
  refine ⟨front.toArray, Position.start.after s.toList, ?_, by simpa using hkinds,
    fun t ↦ ⟨joined t, fun us hus ↦ ?_, fun e he ↦ ?_⟩⟩
  · rw [← tokens.toArray_toList, htokens]
    simp
  · unfold ofText? at hus ⊢
    rw [joined]
    generalize ofText t = stream at hus ⊢
    obtain ⟨us', _ | e⟩ := stream <;> cases hus
    rfl
  · unfold ofText? at he ⊢
    rw [joined]
    generalize ofText t = stream at he ⊢
    obtain ⟨us', _ | e⟩ := stream <;> cases he
    rfl

/-- A comment and a string of two lines, and then an error on the second line of the rest. -/
theorem string_and_error_joined :
    ofText? "# one\n\"a\nb\" -@\n" = .ok (ofText "# one\n\"a\nb\" -@\n").tokens ∧
      ofText? "x\n @" = .error ⟨.namelessAttribute, ⟨⟨2, 2⟩, ⟨2, 2⟩⟩⟩ ∧
      ofText? ("# one\n\"a\nb\" -@\n" ++ "x\n @") =
        .error ⟨.namelessAttribute, ⟨⟨5, 2⟩, ⟨5, 2⟩⟩⟩ := by
  have hs : ofText? "# one\n\"a\nb\" -@\n" = .ok (ofText "# one\n\"a\nb\" -@\n").tokens := rfl
  have ht : ofText? "x\n @" = .error ⟨.namelessAttribute, ⟨⟨2, 2⟩, ⟨2, 2⟩⟩⟩ := rfl
  obtain ⟨front, p, -, -, hjoined⟩ := lexing_is_compositional hs (by decide) (by decide)
  exact ⟨hs, ht, (hjoined "x\n @").2.2 _ ht⟩

end Token

end Quill
