import Quill.Proofs.Token.Classes

/-!
# Operators

Main statement: `operators_match_longest`. Of the operators at the front of a text the longest one
is read, but a minus before an attribute is just that.
-/

namespace Quill.Token

/-- The text of marks, with spaces or tabs between neighbours. -/
inductive Spaced : List Mark → List Char → Prop
  | nil : Spaced [] []
  | single (m : Mark) : Spaced [m] m.text.toList
  | cons {m m' : Mark} {ms : List Mark} {blank text : List Char} : blank ≠ [] →
      (∀ c ∈ blank, c = ' ' ∨ c = '\t') → Spaced (m' :: ms) text →
      Spaced (m :: m' :: ms) (m.text.toList ++ (blank ++ text))

theorem Spaced.head {m : Mark} {ms : List Mark} {text : List Char} (h : Spaced (m :: ms) text) :
    text.head?.any isSpace = false := by
  have hmark (tail : List Char) : (m.text.toList ++ tail).head?.any isSpace = false := by
    cases m <;> rfl
  cases h with
  | single =>
    have hnil := hmark []
    rwa [List.append_nil] at hnil
  | cons => exact hmark _

theorem mark_scans_apart (m : Mark) {tail : List Char}
    (h : ∀ c ∈ tail.head?, c = ' ' ∨ c = '\t') : (Piece.mark m).Scans tail := by
  by_cases hm : m = .colon
  · subst hm
    refine ⟨':', [], rfl, by decide, ?_⟩
    have hname : (tail.head?.any fun d ↦ d.isAlpha || d == '_') = false := by
      cases tail with
      | nil => rfl
      | cons c tail => obtain rfl | rfl := h c rfl <;> rfl
    rw [List.nil_append, scan_colon, hname]
    rfl
  · refine Piece.mark_scans hm fun c hc ↦ ?_
    obtain rfl | rfl := h c hc
    · exact m.growsBy_blank
    · exact m.growsBy_tab

theorem Spaced.tokenizes {ms : List Mark} {text : List Char} (h : Spaced ms text) (p : Position) :
    ∃ ts, Tokenizes p text ts none ∧
      ts.map (·.kind) = (ms.map Kind.mark).intersperse .whitespace ++ [.eof] := by
  -- A mark before blanks, and what is read behind it.
  have mark {m : Mark} {tail : List Char} {ts : List Token} (p : Position)
      (hm : ∀ c ∈ tail.head?, c = ' ' ∨ c = '\t')
      (htail : Tokenizes (p.after m.text.toList) tail ts none) :
      ∃ t : Token, t.kind = .mark m ∧ Tokenizes p (m.text.toList ++ tail) (t :: ts) none := by
    obtain ⟨c, cs, htext, hc, hscan⟩ := mark_scans_apart m hm
    have hmark : m.text.toList = c :: cs := htext
    rw [hmark] at htail ⊢
    rw [htext] at hscan
    exact ⟨_, rfl, .token hc hscan htail⟩
  induction h generalizing p with
  | nil => exact ⟨[endAt p], .stop rfl, rfl⟩
  | single m =>
    have hnil : ∀ c ∈ ([] : List Char).head?, c = ' ' ∨ c = '\t' := nofun
    obtain ⟨t, ht, htokens⟩ := mark (m := m) p hnil (.stop rfl)
    rw [List.append_nil] at htokens
    exact ⟨_, htokens, by simp [ht, endAt]⟩
  | @cons m m' ms blank text hne hblank htext ih =>
    obtain ⟨c, cs, rfl⟩ := List.exists_cons_of_ne_nil hne
    have hspace : ∀ d ∈ c :: cs, isSpace d = true := fun d hd ↦ by
      obtain rfl | rfl := hblank d hd <;> rfl
    have hc : c ≠ nul := (inline_of_isSpace (hspace c List.mem_cons_self)).2
    obtain ⟨ts, hts, hkinds⟩ := ih ((p.after m.text.toList).after (c :: cs))
    have hscan : scan c (cs ++ text) = .ok ⟨.whitespace, c :: cs, text⟩ :=
      scan_blank rfl (hspace c List.mem_cons_self) hspace htext.head
    obtain ⟨t, ht, htokens⟩ := mark (m := m) p (by simpa using hblank c List.mem_cons_self)
      (.token hc hscan hts)
    exact ⟨_, htokens, by simp [ht, hkinds]⟩

theorem mem_takeWhile_of_find? {l : List Mark} {p : Mark → Bool} {m m' : Mark}
    (h : l.find? p = some m) (hm : m' ∈ l) (hp : p m' = true) (hne : m ≠ m') :
    m ∈ l.takeWhile (· != m') := by
  induction l with
  | nil => cases hm
  | cons d l ih =>
    by_cases hd : p d = true
    · rw [List.find?_cons_of_pos hd] at h
      obtain rfl := Option.some.inj h
      rw [List.takeWhile_cons, if_pos (bne_iff_ne.mpr hne)]
      exact List.mem_cons_self
    · have hd' : d ≠ m' := by
        rintro rfl
        exact hd hp
      rw [List.find?_cons_of_neg hd] at h
      rw [List.takeWhile_cons, if_pos (bne_iff_ne.mpr hd')]
      exact List.mem_cons_of_mem d (ih h (List.mem_of_ne_of_mem (Ne.symm hd') hm))

theorem marks_longest {text : List Char} {m m' : Mark}
    (h : marksByLength.find? (marks text) = some m) (hm' : m'.text.toList <+: text)
    (hlonger : m.text.length < m'.text.length) :
    m = .minus ∧ m' = .minusAt ∧ (text.drop 2).head?.any startsName = true := by
  have hmarks : marks text m = true := List.find?_some h
  have hfront : m.text.toList <+: text :=
    List.isPrefixOf_iff_prefix.mp (Bool.and_eq_true_iff.mp hmarks).1
  have hprefix : m.text.toList <+: m'.text.toList := by
    refine List.prefix_of_prefix_length_le hfront hm' ?_
    rw [String.length_toList, String.length_toList]
    exact hlonger.le
  have hcolon : m' ≠ .colon := by
    rintro rfl
    cases m <;> exact absurd hlonger (by decide)
  have hnot : marks text m' = false := by
    refine Bool.eq_false_iff.mpr fun hp ↦ ?_
    have hne : m ≠ m' := by
      rintro rfl
      exact absurd hlonger (Nat.lt_irrefl _)
    exact Piece.not_front_of_before m' m
      (mem_takeWhile_of_find? h (Piece.mem_marksByLength hcolon) hp hne) hprefix
  rw [marks, List.isPrefixOf_iff_prefix.mpr hm', Bool.true_and, Bool.or_eq_false_iff] at hnot
  obtain rfl : m' = .minusAt := bne_eq_false_iff_eq.mp hnot.1
  refine ⟨?_, rfl, by simpa using hnot.2⟩
  cases m <;> first | rfl | exact absurd hprefix (by decide) | exact absurd hlonger (by decide)

theorem scan_longest {c : Char} {rest : List Char} {s : Scanned} {m m' : Mark}
    (h : scan c rest = .ok s) (hk : s.kind = .mark m) (hm' : m'.text.toList <+: c :: rest)
    (hlonger : m.text.length < m'.text.length) :
    m = .minus ∧ m' = .minusAt ∧ (rest.drop 1).head?.any startsName = true := by
  cases scan_takes h with
  | colon hc =>
    subst hc
    cases hk
    obtain ⟨more, hmore⟩ := hm'
    -- No other mark starts with a colon.
    obtain rfl : m' = .colon := by
      cases m' <;> first | rfl | simp [Mark.text] at hmore
    exact absurd hlonger (by decide)
  | mark hfind =>
    cases hk
    exact marks_longest hfind hm' hlonger
  | name =>
    have hne (read : List Char) : nameKind read ≠ .mark m := by
      unfold nameKind
      dsimp only
      split <;> simp
    exact absurd hk (hne _)
  | _ => cases hk

theorem scan_minus_attr {c : Char} {rest : List Char} (hc : startsName c = true) :
    scan '-' ('@' :: c :: rest) = .ok ⟨.mark .minus, ['-'], '@' :: c :: rest⟩ := by
  have hfind : marksByLength.find? (marks ('-' :: '@' :: c :: rest)) = some .minus := by
    refine Piece.find?_of_takeWhile (by decide) rfl fun m' hm' ↦ ?_
    cases m' <;> first | rfl | exact absurd hm' (by decide) | simp [marks, hc]
  rw [scan_plain (by decide)]
  change scanMark '-' ('-' :: '@' :: c :: rest) = _
  rw [scanMark, hfind]
  rfl

/-- Marks with blanks between them are read one by one. In every text, what is read as a mark is the
longest one that the text goes on with, but `-@` before the name of an attribute is a minus. -/
theorem operators_match_longest :
    (∀ ms text, Spaced ms text.toList → ∃ tokens, ofText? text = .ok tokens ∧
      tokens.toList.map (·.kind) = (ms.map Kind.mark).intersperse .whitespace ++ [.eof]) ∧
    ∀ text before t after, (ofText text).tokens.toList = before ++ t :: after →
      ∃ rest, text.toList = spelled before ++ rest ∧
        (∀ m, t.kind = .mark m → m.text.toList <+: rest ∧
          ∀ m' : Mark, m'.text.toList <+: rest → m.text.length < m'.text.length →
            m = .minus ∧ m' = .minusAt ∧ (rest.drop 2).head?.any startsName = true) ∧
        ∀ c more, rest = '-' :: '@' :: c :: more → startsName c = true → t.kind = .mark .minus := by
  refine ⟨fun ms text h ↦ ?_, fun text before t after heq ↦ ?_⟩
  · obtain ⟨ts, hts, hkinds⟩ := h.tokenizes .start
    refine ⟨ts.toArray, ofText?_iff.mpr ?_, ?_⟩
    · exact hts
    · exact hkinds
  · obtain ⟨ts, e, htext, hts⟩ := ofText_tokenizes text
    rw [htext, List.toList_toArray] at heq
    subst heq
    obtain ⟨rest, hrest, hat⟩ := hts.at_token
    obtain ⟨more, hmore, hspelled, -⟩ := hat.isWord
    refine ⟨rest, hrest, fun m hm ↦ ⟨?_, ?_⟩, ?_⟩
    · rw [hm] at hspelled
      exact ⟨more, by rw [hmore, hspelled]⟩
    · cases hat with
      | stop => cases hm
      | token _ hscan => exact fun m' ↦ scan_longest hscan hm
    · rintro c more rfl hc
      cases hat with
      | stop hs => cases hs
      | token _ hscan =>
        rw [scan_minus_attr hc] at hscan
        cases hscan
        rfl

theorem operators_match_longest_of_minus :
    (∃ tokens, ofText? "- -=" = .ok tokens ∧
      tokens.toList.map (·.kind) = [.mark .minus, .whitespace, .mark .minusAssign, .eof]) ∧
    ∃ rest, "-@a".toList = spelled [] ++ rest ∧ Mark.minus.text.toList <+: rest ∧
      ∀ m : Mark, m.text.toList <+: rest → 1 < m.text.length → m = .minusAt := by
  obtain ⟨hspaced, hlongest⟩ := operators_match_longest
  refine ⟨hspaced [.minus, .minusAssign] "- -="
    (.cons (List.cons_ne_nil ' ' []) (by simp) (.single _)), ?_⟩
  obtain ⟨rest, hrest, hmark, -⟩ := hlongest "-@a" [] ⟨.mark .minus, "-", .point .start⟩ _ rfl
  obtain ⟨hminus, hlonger⟩ := hmark .minus rfl
  exact ⟨rest, hrest, hminus, fun m hm hlt ↦ (hlonger m hm hlt).2.1⟩

/-- Before an attribute stands a minus, before a bracket the name of the unary one. -/
example : (ofText "-@a -@(").tokens.toList.map (·.kind) =
    [.mark .minus, .attr "a", .whitespace, .mark .minusAt, .mark .lParen, .eof] := rfl

end Quill.Token
