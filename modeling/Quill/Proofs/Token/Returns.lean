import Quill.Proofs.Token.Lookahead

/-!
# Tokens of a text with carriage returns

A carriage return before each line feed is white space to all tokens but one: it ends a comment's
text. Every other token is read as before.
-/

namespace Quill

namespace Text

def withReturns (text : List Char) : List Char :=
  text.flatMap fun c ↦ if c = '\n' then ['\r', '\n'] else [c]

@[simp] theorem withReturns_nil : withReturns [] = [] := rfl

theorem withReturns_newline (text : List Char) :
    withReturns ('\n' :: text) = '\r' :: '\n' :: withReturns text := rfl

theorem withReturns_cons {c : Char} (text : List Char) (hc : c ≠ '\n') :
    withReturns (c :: text) = c :: withReturns text := by
  rw [withReturns, List.flatMap_cons, if_neg hc]
  rfl

theorem withReturns_append (s t : List Char) :
    withReturns (s ++ t) = withReturns s ++ withReturns t := List.flatMap_append

theorem withReturns_of_not_mem {text : List Char} (h : '\n' ∉ text) : withReturns text = text := by
  induction text with
  | nil => rfl
  | cons c text ih =>
    have hc : c ≠ '\n' := fun hc ↦ h (hc ▸ List.mem_cons_self)
    rw [withReturns_cons text hc, ih fun hm ↦ h (List.mem_cons_of_mem c hm)]

theorem withReturns_cases (text : List Char) :
    text = [] ∨ (∃ c rest, c ≠ '\n' ∧ text = c :: rest ∧ withReturns text = c :: withReturns rest) ∨
      ∃ rest, text = '\n' :: rest ∧ withReturns text = '\r' :: '\n' :: withReturns rest := by
  cases text with
  | nil => exact .inl rfl
  | cons c rest =>
    by_cases hc : c = '\n'
    · subst hc
      exact .inr (.inr ⟨rest, rfl, rfl⟩)
    · exact .inr (.inl ⟨c, rest, hc, rfl, withReturns_cons rest hc⟩)

end Text

namespace Token

open Text

theorem exists_line (text : List Char) : ∃ line more, text = line ++ more ∧ '\n' ∉ line ∧
    EndsLine more ∧ EndsLine (withReturns more) := by
  refine ⟨text.takeWhile (· != '\n'), text.dropWhile (· != '\n'),
    List.takeWhile_append_dropWhile.symm, fun hm ↦ ?_, ?_⟩
  · simpa using List.mem_takeWhile_imp hm
  · obtain hmore | ⟨c, more, hc, hmore, -⟩ | ⟨more, hmore, hreturns⟩ :=
      withReturns_cases (text.dropWhile (· != '\n'))
    · rw [hmore]
      exact ⟨nofun, nofun⟩
    · have h := List.head?_dropWhile_not (· != '\n') text
      rw [hmore] at h
      exact absurd h (by simpa using hc)
    · rw [hreturns, hmore]
      exact ⟨endsLine_cons (.inl rfl) more, endsLine_cons (.inr rfl) _⟩

def Scanned.withReturns (s : Scanned) : Scanned := ⟨s.kind, s.read, Text.withReturns s.rest⟩

theorem scan_withReturns {c : Char} {rest : List Char} {s : Scanned} (hnul : c ≠ nul)
    (h : scan c rest = .ok s) (hs : isSpace c = false) (hc : c ≠ '#') (hline : '\n' ∉ s.read) :
    scan c (withReturns rest) = .ok s.withReturns := by
  have front := scan_isFront hnul h
  obtain ⟨inner, hread⟩ := List.head?_eq_some_iff.mp front.starts
  by_cases hquote : c = '"' ∨ c = '\''
  · have hrest : rest = inner ++ s.rest := by
      have hsplit := front.split
      rw [hread, List.cons_append] at hsplit
      exact (List.cons.inj hsplit).2.symm
    have hinner : '\n' ∉ inner := fun hm ↦ hline (hread ▸ List.mem_cons_of_mem c hm)
    have hscan := scan_string hquote h (withReturns s.rest)
    rw [hread, List.tail_cons] at hscan
    rw [hrest, withReturns_append, withReturns_of_not_mem hinner, hscan, ← hread]
    rfl
  · -- Up to the end of the line the text is the same.
    obtain ⟨line, more, rfl, hinner, hends, hreturns⟩ := exists_line rest
    have hn : c ≠ '\n' := fun hn ↦ hline (hread ▸ hn ▸ List.mem_cons_self)
    have hplain : StartsPlainly c := by
      simp only [isSpace, Bool.or_eq_false_iff, beq_eq_false_iff_ne] at hs
      rw [not_or] at hquote
      simp [StartsPlainly, hs, hn, hc, hquote]
    rw [scan_append hplain hends] at h
    rw [withReturns_append, withReturns_of_not_mem hinner, scan_append hplain hreturns]
    cases hscan : scan c line with
    | error f => rw [hscan] at h; cases h
    | ok s' =>
      rw [hscan] at h
      cases h
      have hrest : '\n' ∉ s'.rest := by
        intro hm
        have hmem : '\n' ∈ c :: line :=
          (scan_isFront hnul hscan).split ▸ List.mem_append_right s'.read hm
        exact hinner (List.mem_of_ne_of_mem (Ne.symm hn) hmem)
      change Except.ok (s'.followedBy _) = Except.ok ⟨_, _, withReturns (s'.rest ++ more)⟩
      rw [withReturns_append, withReturns_of_not_mem hrest]
      rfl

/-- The tokens of a text and those of the text with carriage returns. These stand in blanks, maybe
in blanks of their own, and at the end of comments. -/
inductive Returned : List Token → List Token → Prop
  | stop (p q : Position) : Returned [endAt p] [endAt q]
  | same {t : Token} {ts us : List Token} : (∀ text, t.kind ≠ .comment text) → Returned ts us →
      Returned (t :: ts) (t :: us)
  | moved {t u : Token} {ts us : List Token} : t.kind = u.kind →
      t.kind = .whitespace ∨ t.kind = .newline → Returned ts us → Returned (t :: ts) (u :: us)
  | blank {u : Token} {ts us : List Token} : u.kind = .whitespace → Returned ts us →
      Returned ts (u :: us)
  | comment {t u : Token} {ts us : List Token} {text : String} : t.kind = .comment text →
      u.kind = .comment (text.push '\r') → '\n' ∉ text.toList → '\r' ∉ text.toList →
      Returned ts us → Returned (t :: ts) (u :: us)
  | lastComment {t : Token} {text : String} (p q : Position) : t.kind = .comment text →
      Returned [t, endAt p] [t, endAt q]

def isString : Kind → Bool
  | .str _ => true
  | _ => false

def InLine (ts : List Token) : Prop := ∀ t ∈ ts, isString t.kind = true → '\n' ∉ t.lexeme.toList

instance (ts : List Token) : Decidable (InLine ts) :=
  inferInstanceAs (Decidable (∀ t ∈ ts, isString t.kind = true → '\n' ∉ t.lexeme.toList))

variable {p : Position} {c : Char} {rest : List Char} {s : Scanned} {ts us : List Token}

/-- The text with carriage returns has the same tokens, also where the first of these belongs to the
token before. -/
structure Rereads (p : Position) (text : List Char) (ts : List Token) : Prop where
  whole : ∃ us, Tokenizes p (withReturns text) us none ∧ Returned ts us
  behind : ∀ rest, text = '\n' :: rest →
    ∃ us, Tokenizes (p.next '\r') ('\n' :: withReturns rest) us none ∧ Returned ts us

namespace Rereads

theorem withReturns_run {front back : List Char} (hf : '\n' ∉ front) :
    withReturns (front ++ back) = front ++ withReturns back := by
  rw [withReturns_append, withReturns_of_not_mem hf]

theorem blank (hc : isSpace c = true) (hscan : scan c rest = .ok s)
    (h : Rereads (p.after s.read) s.rest ts) :
    Rereads p (c :: rest) (⟨s.kind, String.ofList s.read, .ofText p s.read⟩ :: ts) := by
  obtain ⟨front, back, ht, hf, hb⟩ := run_split isSpace (c :: rest)
  rw [scan_blank ht hc hf hb] at hscan
  cases hscan
  have hcn := inline_of_isSpace hc
  have hnul : c ≠ nul := hcn.2
  have hline : '\n' ∉ front := fun hm ↦ (inline_of_isSpace (hf _ hm)).1 rfl
  refine ⟨?_, fun _ heq ↦ absurd (List.cons.inj heq).1 hcn.1⟩
  have reads (front' back' : List Char) {us : List Token}
      (ht' : withReturns (c :: rest) = front' ++ back') (hf' : ∀ d ∈ front', isSpace d = true)
      (hb' : back'.head?.any isSpace = false) (hus : Tokenizes (p.after front') back' us none)
      (hreturned : Returned ts us) : ∃ us, Tokenizes p (withReturns (c :: rest)) us none ∧
        Returned (⟨.whitespace, String.ofList front, .ofText p front⟩ :: ts) us := by
    rw [withReturns_cons rest hcn.1] at ht' ⊢
    exact ⟨_, .token hnul (scan_blank ht' hc hf' hb') hus, .moved rfl (.inl rfl) hreturned⟩
  obtain ⟨us, hus, hreturned⟩ := h.whole
  obtain rfl | ⟨d, more, -, rfl, hback⟩ | ⟨more, rfl, hback⟩ := withReturns_cases back
  · exact reads front [] (by rw [ht, withReturns_run hline]; rfl) hf rfl hus hreturned
  · refine reads front _ (by rw [ht, withReturns_run hline]) hf ?_ hus hreturned
    rw [hback]
    exact hb
  · obtain ⟨us, hus, hreturned⟩ := h.behind more rfl
    refine reads (front ++ ['\r']) ('\n' :: withReturns more) ?_ ?_ rfl ?_ hreturned
    · rw [ht, withReturns_run hline, hback, List.append_assoc]
      rfl
    · intro d hd
      obtain hd | hd := List.mem_append.mp hd
      · exact hf d hd
      · rw [List.mem_singleton.mp hd]
        rfl
    · rw [Position.after_append]
      exact hus

theorem newline (h : Rereads (p.next '\n') rest ts) :
    Rereads p ('\n' :: rest) (⟨.newline, String.ofList ['\n'], .ofText p ['\n']⟩ :: ts) := by
  obtain ⟨us, hus, hreturned⟩ := h.whole
  have hbreak : Tokenizes (p.next '\r') ('\n' :: withReturns rest)
      (⟨.newline, String.ofList ['\n'], .ofText (p.next '\r') ['\n']⟩ :: us) none :=
    .token (s := ⟨.newline, ['\n'], withReturns rest⟩) (by decide) rfl hus
  have hmoved : Returned (⟨.newline, String.ofList ['\n'], .ofText p ['\n']⟩ :: ts) _ :=
    .moved (u := ⟨.newline, String.ofList ['\n'], .ofText (p.next '\r') ['\n']⟩) rfl (.inr rfl)
      hreturned
  have hreturn : scan '\r' ('\n' :: withReturns rest) =
      .ok ⟨.whitespace, ['\r'], '\n' :: withReturns rest⟩ :=
    scan_blank rfl rfl (by simp [isSpace]) rfl
  refine ⟨⟨_, .token (by decide) hreturn hbreak, .blank rfl hmoved⟩, ?_⟩
  rintro _ ⟨⟩
  exact ⟨_, hbreak, hmoved⟩

theorem comment (hr : '\r' ∉ '#' :: rest) (hscan : scan '#' rest = .ok s)
    (hts : Tokenizes (p.after s.read) s.rest ts none) (h : Rereads (p.after s.read) s.rest ts) :
    Rereads p ('#' :: rest) (⟨s.kind, String.ofList s.read, .ofText p s.read⟩ :: ts) := by
  obtain ⟨front, back, ht, hf, hb⟩ := run_split (fun d ↦ d != '\n' && d != nul) ('#' :: rest)
  rw [scan_comment ht hf hb] at hscan
  cases hscan
  have hline : '\n' ∉ front := fun hm ↦ absurd (hf _ hm) (by decide)
  refine ⟨?_, fun _ heq ↦ absurd (List.cons.inj heq).1 (by decide)⟩
  have htext : '#' :: withReturns rest = front ++ withReturns back := by
    rw [← withReturns_cons rest (by decide), ht, withReturns_run hline]
  rw [withReturns_cons rest (by decide)]
  -- Without a line break behind it a comment ends the text, and is the same.
  have ends (hback : back = [] ∨ ∃ more, back = nul :: more) :
      ∃ us, Tokenizes p ('#' :: withReturns rest) us none ∧
        Returned (⟨.comment (String.ofList front), String.ofList front, .ofText p front⟩ :: ts)
          us := by
    obtain ⟨hts', hstop, hb'⟩ : ts = [endAt (p.after front)] ∧
        (withReturns back).takeWhile (· != nul) = [] ∧
        (withReturns back).head?.any (fun d ↦ d != '\n' && d != nul) = false := by
      obtain rfl | ⟨more, rfl⟩ := hback
      · cases hts
        exact ⟨rfl, rfl, rfl⟩
      · refine ⟨?_, rfl, rfl⟩
        cases hts with
        | stop => rfl
        | token hnul => exact absurd rfl hnul
    rw [hts']
    exact ⟨_, .token (by decide) (scan_comment htext hf hb') (.stop hstop), .lastComment _ _ rfl⟩
  obtain rfl | ⟨d, more, hd, rfl, hback⟩ | ⟨more, rfl, hback⟩ := withReturns_cases back
  · exact ends (.inl rfl)
  · have hnul : d = nul := by simpa [hd] using hb
    exact ends (.inr ⟨more, by rw [hnul]⟩)
  · obtain ⟨us, hus, hreturned⟩ := h.behind more rfl
    have hfront : String.ofList (front ++ ['\r']) = (String.ofList front).push '\r' :=
      String.toList_injective (by simp)
    have hreturn : '\r' ∉ front := fun hm ↦ hr (ht ▸ List.mem_append_left _ hm)
    refine ⟨_, .token (s := ⟨.comment (String.ofList (front ++ ['\r'])), front ++ ['\r'],
      '\n' :: withReturns more⟩) (by decide) (scan_comment ?_ ?_ rfl) ?_,
      .comment rfl (congrArg Kind.comment hfront) ?_ ?_ hreturned⟩
    · rw [htext, hback, List.append_assoc]
      rfl
    · intro d hd
      obtain hd | hd := List.mem_append.mp hd
      · exact hf d hd
      · rw [List.mem_singleton.mp hd]
        rfl
    · rw [Position.after_append]
      exact hus
    · rwa [String.toList_ofList]
    · rwa [String.toList_ofList]

theorem same (hc : c ≠ nul) (hscan : scan c rest = .ok s) (hspace : isSpace c = false)
    (hhash : c ≠ '#') (hn : c ≠ '\n') (hline : '\n' ∉ s.read)
    (h : Rereads (p.after s.read) s.rest ts) :
    Rereads p (c :: rest) (⟨s.kind, String.ofList s.read, .ofText p s.read⟩ :: ts) := by
  have hkind : ∀ text, s.kind ≠ .comment text := by
    cases scan_takes hscan with
    | comment hc => exact absurd hc hhash
    | name _ =>
      intro text
      change nameKind _ ≠ _
      unfold nameKind
      dsimp only
      split <;> nofun
    | _ => nofun
  obtain ⟨us, hus, hreturned⟩ := h.whole
  refine ⟨?_, fun _ heq ↦ absurd (List.cons.inj heq).1 hn⟩
  rw [withReturns_cons rest hn]
  exact ⟨_, .token hc (scan_withReturns hc hscan hspace hhash hline) hus, .same hkind hreturned⟩

end Rereads

theorem Tokenizes.rereads {text : List Char} {e : Option LexError} (h : Tokenizes p text ts e)
    (he : e = none) (hr : '\r' ∉ text) (hs : InLine ts) : Rereads p text ts := by
  induction h with
  | @stop p text hstop =>
    refine ⟨⟨_, .stop ?_, .stop p p⟩, ?_⟩
    · cases text with
      | nil => rfl
      | cons d text =>
        have hd : d = nul := by
          by_contra hd
          rw [List.takeWhile_cons_of_pos (by simpa using hd)] at hstop
          cases hstop
        rw [hd]
        rfl
    · rintro rest rfl
      cases hstop
  | fail => cases he
  | @token p c rest s ts e hc hscan hts ih =>
    have front := scan_isFront hc hscan
    subst he
    have hrest : '\r' ∉ s.rest := fun hm ↦ hr (front.split ▸ List.mem_append_right _ hm)
    have ih := ih rfl hrest fun t ht ↦ hs t (List.mem_cons_of_mem _ ht)
    -- Blanks and comments may take a carriage return behind them. The other tokens do not.
    by_cases hspace : isSpace c = true
    · exact .blank hspace hscan ih
    by_cases hn : c = '\n'
    · subst hn
      cases hscan
      exact .newline ih
    by_cases hhash : c = '#'
    · subst hhash
      exact .comment hr hscan hts ih
    have hline : '\n' ∉ s.read := by
      by_cases hstr : ∃ value, s.kind = .str value
      · obtain ⟨value, hvalue⟩ := hstr
        simpa using hs _ List.mem_cons_self (by rw [hvalue]; rfl)
      · refine front.line (fun hk ↦ ?_) fun value hk ↦ hstr ⟨value, hk⟩
        have hread := front.starts
        rw [front.newline hk] at hread
        exact hn (Option.some.inj hread).symm
    exact .same hc hscan (Bool.eq_false_iff.mpr hspace) hhash hn hline ih

end Token

end Quill
