import Quill.Proofs.Equality

/-!
# Taking texts apart and putting them together

A text is cut where a separator occurs, looked for from the left and after the occurrence before.
What is between the occurrences gives the text again with the separator in between, and texts that
have no character of the separator are found again in what they are joined to. Main statement:
`splitting_inverse`.
-/

namespace Quill

namespace Text

variable {sep text piece : List Char} {done pieces : List (List Char)}

/-- The pieces of a text between the occurrences of a separator, of which each is the first one
after that before it. -/
inductive Cut (sep : List Char) : List Char → List (List Char) → Prop
  | last {text : List Char} : ¬ sep <:+: text → Cut sep text [text]
  | next {piece rest : List Char} {pieces : List (List Char)} :
      (∀ i < piece.length, ¬ sep <+: (piece ++ (sep ++ rest)).drop i) → Cut sep rest pieces →
      Cut sep (piece ++ (sep ++ rest)) (piece :: pieces)

/-- The places of the occurrences of a separator in a text, looked for from the left and without
overlap: each is the first one from `start`, or from the end of that before it. -/
inductive Occurrences (sep text : List Char) : Nat → List Nat → Prop
  | none {start : Nat} : (∀ i, start ≤ i → ¬ sep <+: text.drop i) → Occurrences sep text start []
  | next {start place : Nat} {places : List Nat} : start ≤ place → sep <+: text.drop place →
      (∀ i, start ≤ i → i < place → ¬ sep <+: text.drop i) →
      Occurrences sep text (place + sep.length) places →
      Occurrences sep text start (place :: places)

theorem Occurrences.unique {start : Nat} {places places' : List Nat}
    (h : Occurrences sep text start places) (h' : Occurrences sep text start places') :
    places' = places := by
  induction h generalizing places' with
  | none hnone =>
    cases h' with
    | none => rfl
    | next hle hfound => exact absurd hfound (hnone _ hle)
  | next hle hfound hfirst _ ih =>
    cases h' with
    | none hnone => exact absurd hfound (hnone _ hle)
    | next hle' hfound' hfirst' hrest' =>
      rename_i place _ _ place' _
      obtain hlt | rfl | hgt := Nat.lt_trichotomy place place'
      · exact absurd hfound (hfirst' place hle hlt)
      · rw [ih hrest']
      · exact absurd hfound' (hfirst place' hle' hgt)

theorem infix_iff_exists_drop : sep <:+: text ↔ ∃ i, sep <+: text.drop i := by
  constructor
  · rintro ⟨before, after, rfl⟩
    refine ⟨before.length, ?_⟩
    rw [List.append_assoc, List.drop_left]
    exact List.prefix_append sep after
  · rintro ⟨i, hi⟩
    exact hi.isInfix.trans (List.drop_suffix i text).isInfix

theorem splitFrom_skip (skip : Nat) :
    splitFrom sep done piece skip text = splitFrom sep done piece 0 (text.drop skip) := by
  induction text generalizing skip with
  | nil => cases skip <;> rfl
  | cons c rest ih =>
    cases skip with
    | zero => rfl
    | succ skip =>
      rw [splitFrom, ih, List.drop_succ_cons]

theorem splitFrom_cut (hsep : sep ≠ []) (text : List Char) (done : List (List Char))
    (piece : List Char) (hpiece : ∀ i < piece.length, ¬ sep <+: (piece.reverse ++ text).drop i) :
    ∃ pieces, splitFrom sep done piece 0 text = done.reverse ++ pieces ∧
      Cut sep (piece.reverse ++ text) pieces := by
  -- By the length of the text, since behind an occurrence the search skips all of it.
  induction hn : text.length using Nat.strongRecOn generalizing text done piece with
  | ind n ih =>
  subst hn
  cases text with
  | nil =>
    refine ⟨[piece.reverse], by simp [splitFrom], ?_⟩
    rw [List.append_nil] at hpiece ⊢
    refine .last fun hwithin ↦ ?_
    obtain ⟨i, hi⟩ := infix_iff_exists_drop.mp hwithin
    by_cases hlt : i < piece.length
    · exact hpiece i hlt hi
    · rw [List.drop_eq_nil_of_le (by rw [List.length_reverse]; omega)] at hi
      exact hsep (List.prefix_nil.mp hi)
  | cons c rest =>
    rw [splitFrom]
    split
    · rename_i hprefix
      obtain ⟨after, hafter⟩ := List.isPrefixOf_iff_prefix.mp hprefix
      have hdrop : rest.drop (sep.length - 1) = after := by
        obtain ⟨d, sep', rfl⟩ := List.exists_cons_of_ne_nil hsep
        obtain ⟨-, rfl⟩ := List.cons.inj hafter
        exact List.drop_left
      have hshort : after.length < (c :: rest).length := by
        have hpos := List.length_pos_of_ne_nil hsep
        rw [← hafter, List.length_append]
        omega
      obtain ⟨pieces, hpieces, hcut⟩ :=
        ih after.length hshort after (piece.reverse :: done) [] (by simp) rfl
      refine ⟨piece.reverse :: pieces, ?_, ?_⟩
      · rw [splitFrom_skip, hdrop, hpieces]
        simp
      · rw [← hafter] at hpiece ⊢
        exact .next (by rwa [List.length_reverse]) hcut
    · rename_i hprefix
      have hsame : (c :: piece).reverse ++ rest = piece.reverse ++ c :: rest := by simp
      have hnone : ∀ i < (c :: piece).length,
          ¬ sep <+: ((c :: piece).reverse ++ rest).drop i := fun i hi ↦ by
        rw [hsame]
        obtain hlt | rfl := Nat.lt_succ_iff_lt_or_eq.mp hi
        · exact hpiece i hlt
        · rw [List.drop_left' List.length_reverse]
          exact fun h ↦ hprefix (List.isPrefixOf_iff_prefix.mpr h)
      have hcut := ih rest.length (Nat.lt_succ_self _) rest done (c :: piece) hnone rfl
      rwa [hsame] at hcut

theorem split_cut (hsep : sep ≠ []) (text : List Char) : Cut sep text (split sep text) := by
  obtain ⟨pieces, hpieces, hcut⟩ := splitFrom_cut hsep text [] [] (by simp)
  rw [split, if_neg (by simpa using hsep), hpieces]
  exact hcut

theorem split_empty (text : List Char) : split [] text = text.map ([·]) := rfl

theorem intercalate_nil (pieces : List (List Char)) :
    [].intercalate pieces = pieces.flatten := by
  induction pieces with
  | nil => rfl
  | cons first more ih =>
    cases more with
    | nil => simp
    | cons second more =>
      rw [List.intercalate_cons_cons, ih, List.append_nil]
      rfl

theorem flatten_singletons (text : List Char) : (text.map ([·])).flatten = text := by
  rw [← List.flatMap_def, List.flatMap_singleton']

namespace Cut

theorem exists_cons (h : Cut sep text pieces) : ∃ first more, pieces = first :: more := by
  cases h <;> exact ⟨_, _, rfl⟩

theorem intercalate (h : Cut sep text pieces) : sep.intercalate pieces = text := by
  induction h with
  | last => simp
  | next _ hcut ih =>
    obtain ⟨first, more, rfl⟩ := hcut.exists_cons
    rw [List.intercalate_cons_cons, ih, List.append_assoc]

theorem not_infix (hsep : sep ≠ []) (h : Cut sep text pieces) :
    ∀ piece ∈ pieces, ¬ sep <:+: piece := by
  induction h with
  | last hnone => simpa using hnone
  | @next piece rest pieces hfirst _ ih =>
    refine List.forall_mem_cons.mpr ⟨fun hwithin ↦ ?_, ih⟩
    obtain ⟨i, hi⟩ := infix_iff_exists_drop.mp hwithin
    by_cases hlt : i < piece.length
    · refine hfirst i hlt ?_
      rw [List.drop_append_of_le_length hlt.le]
      exact hi.trans (List.prefix_append _ _)
    · rw [List.drop_eq_nil_of_le (by omega)] at hi
      exact hsep (List.prefix_nil.mp hi)

theorem occurrences (h : Cut sep text pieces) (before : List Char) :
    ∃ places, Occurrences sep (before ++ text) before.length places ∧
      pieces.length = places.length + 1 := by
  have hdrop (text : List Char) {i : Nat} (hi : before.length ≤ i) :
      (before ++ text).drop i = text.drop (i - before.length) := by
    rw [List.drop_append, List.drop_eq_nil_of_le hi, List.nil_append]
  induction h generalizing before with
  | @last text hnone =>
    refine ⟨[], .none fun i hi hfound ↦ hnone (infix_iff_exists_drop.mpr ?_), rfl⟩
    rw [hdrop text hi] at hfound
    exact ⟨_, hfound⟩
  | @next piece rest pieces hfirst _ ih =>
    obtain ⟨places, hplaces, hlength⟩ := ih (before ++ piece ++ sep) (fun _ _ hi ↦ by
      rw [List.drop_append, List.drop_eq_nil_of_le hi, List.nil_append])
    refine ⟨(before ++ piece).length :: places, .next ?_ ?_ (fun i hi hlt ↦ ?_) ?_, ?_⟩
    · simp
    · rw [← List.append_assoc, List.drop_left]
      exact List.prefix_append sep rest
    · rw [hdrop _ hi]
      refine hfirst _ ?_
      rw [List.length_append] at hlt
      omega
    · rw [← List.length_append]
      simpa only [List.append_assoc] using hplaces
    · rw [List.length_cons, hlength, List.length_cons]

theorem cases_eq (h : Cut sep text pieces) : ¬ sep <:+: text ∧ pieces = [text] ∨
    ∃ piece rest more, text = piece ++ (sep ++ rest) ∧ pieces = piece :: more ∧
      (∀ i < piece.length, ¬ sep <+: text.drop i) ∧ Cut sep rest more := by
  cases h with
  | last hnone => exact .inl ⟨hnone, rfl⟩
  | next hfirst hcut => exact .inr ⟨_, _, _, rfl, rfl, hfirst, hcut⟩

theorem unique {pieces' : List (List Char)} (h : Cut sep text pieces)
    (h' : Cut sep text pieces') : pieces' = pieces := by
  have found (piece rest : List Char) :
      sep <+: (piece ++ (sep ++ rest)).drop piece.length := by
    rw [List.drop_left]
    exact List.prefix_append sep rest
  induction h generalizing pieces' with
  | last hnone =>
    obtain ⟨-, rfl⟩ | ⟨piece, rest, _, rfl, -⟩ := h'.cases_eq
    · rfl
    · exact absurd (infix_iff_exists_drop.mpr ⟨_, found piece rest⟩) hnone
  | @next piece rest pieces hfirst _ ih =>
    obtain ⟨hnone, -⟩ | ⟨piece', rest', more, htext, rfl, hfirst', hcut⟩ := h'.cases_eq
    · exact absurd (infix_iff_exists_drop.mpr ⟨_, found piece rest⟩) hnone
    · have hlength : piece.length = piece'.length := by
        refine Nat.le_antisymm ?_ ?_
        · by_contra hlt
          exact hfirst _ (Nat.lt_of_not_le hlt) (htext ▸ found piece' rest')
        · by_contra hlt
          exact hfirst' _ (Nat.lt_of_not_le hlt) (found piece rest)
      obtain ⟨rfl, hrest⟩ := List.append_inj htext hlength
      obtain rfl := List.append_cancel_left hrest
      rw [ih hcut]

/-- Texts without a character of the separator are the pieces of what they are joined to. -/
theorem of_intercalate {first : List Char} {more : List (List Char)}
    (hsep : sep ≠ []) (h : ∀ piece ∈ first :: more, ∀ c ∈ sep, c ∉ piece) :
    Cut sep (sep.intercalate (first :: more)) (first :: more) := by
  obtain ⟨d, sep', rfl⟩ := List.exists_cons_of_ne_nil hsep
  induction more generalizing first with
  | nil =>
    rw [List.intercalate_singleton]
    refine .last fun hwithin ↦ ?_
    exact h first List.mem_cons_self d List.mem_cons_self (hwithin.subset List.mem_cons_self)
  | cons second more ih =>
    obtain ⟨hfirst, hmore⟩ := List.forall_mem_cons.mp h
    rw [List.intercalate_cons_cons, List.append_assoc]
    refine .next (fun i hi hfound ↦ ?_) (ih hmore)
    rw [List.drop_append_of_le_length hi.le, List.drop_eq_getElem_cons hi, List.cons_append,
      List.cons_prefix_cons] at hfound
    exact hfirst d List.mem_cons_self (hfound.1 ▸ List.getElem_mem hi)

end Cut

end Text

namespace Routine

def splitWords : Entry := fixed .string .string "split" [] (.text .words)

def splitText : Entry := fixed .string .string "split" [.string] (.text .split)

def textChars : Entry := fixed .string .string "chars" [] (.text .chars)

def joinPlain : Entry := fixed .list .list "join" [] (.list .joinPlain)

def joinText : Entry := fixed .list .list "join" [.string] (.list .join)

end Routine

/-- Strings are taken apart and lists are joined as from the start. -/
structure Types.SplitsInstalled (ts : Types) : Prop where
  split : ts.FindsInstalled "split" [.string]
  chars : ts.FindsInstalled "chars" [.string]
  join : ts.FindsInstalled "join" [.list]

/-- The value is a list of these strings. -/
def State.HasTexts (s : State) (v : Value) (texts : List String) : Prop :=
  ∃ l : ListId, v = .list l ∧ s.lists[l.index]? = some (texts.map Value.str).toArray

open Eval

/-- The work ends with a list of these strings. -/
def Eval.MakesTexts (x : Eval Value) (s : State) (texts : List String) : Prop :=
  x.Yields s fun s' o ↦ ∃ v, o = .ok v ∧ s'.HasTexts v texts

theorem State.HasTexts.keeps {s s' : State} {v : Value} {texts : List String}
    (h : s.HasTexts v texts) (hs : s.Keeps s') : s'.HasTexts v texts := by
  obtain ⟨l, rfl, hl⟩ := h
  exact ⟨l, rfl, hs.lists _ _ hl⟩

theorem State.lasting_hasTexts (texts : List String) :
    Lasting fun s o ↦ ∃ v, o = .ok v ∧ s.HasTexts v texts :=
  fun _ _ _ hs ⟨v, ho, h⟩ ↦ ⟨v, ho, h.keeps hs⟩

theorem Task.CallsFor.yields {t : Task} {x : Eval Value} {s : State}
    {P : State → Outcome Value → Prop} (h : t.CallsFor x s) (hP : Lasting P)
    (hx : ∀ held frame, x.Yields { s with held, frames := s.frames.push frame } P) :
    t.Yields s P := by
  obtain ⟨held, frame, hcall⟩ := h
  obtain ⟨o, s', hgives, hgrows, hend⟩ := hx held frame
  have hkeeps : s'.Keeps { s' with frames := s'.frames.pop, held := s.held } := .of_eq rfl rfl
  exact ⟨o, _, hcall o s' hgives, hgrows.called, hP hkeeps hend⟩

section

variable {s : State} {v : Value} {texts : List String} {span : Span}

theorem TextRoutine.pieces_makes (parts : List (List Char)) (s : State) :
    (pieces parts).MakesTexts s (parts.map String.ofList) := by
  refine ⟨_, _, .newList _ s, .newList s _, _, rfl, ⟨s.lists.size⟩, rfl, ?_⟩
  refine Array.getElem?_push_size.trans ?_
  rw [List.map_map]
  rfl

theorem ListRoutine.displayItems_texts (done texts : List String) (s : State) :
    (displayItems done (texts.map .str)).Gives s (.ok (done.reverse ++ texts)) s := by
  induction texts generalizing done with
  | nil =>
    rw [List.append_nil]
    exact .pure _ s
  | cons text texts ih =>
    have hshown : (display (.str text)).Gives { s with held := ⟨texts.map .str, none⟩ :: s.held }
        (.ok text) { s with held := ⟨texts.map .str, none⟩ :: s.held } :=
      .bind (.read _ _) (.pure _ _)
    have hrest := ih (text :: done)
    rw [List.reverse_cons, List.append_assoc, List.singleton_append] at hrest
    exact .bind hshown.keeping hrest

theorem ListRoutine.joined_gives {l : ListId} (h : s.HasTexts (.list l) texts)
    (separator : String) :
    (joined l separator).Gives s (.ok (.str (separator.intercalate texts))) s := by
  obtain ⟨_, ⟨⟩, hl⟩ := h
  refine .bind (.read _ s) ?_
  have hitems : s.items l = (texts.map Value.str).toArray := by rw [State.items, hl]; rfl
  rw [hitems]
  exact .bind (displayItems_texts [] texts s) (.pure _ s)

section

variable (hroom : s.frames.size < s.config.maxCallDepth) (hs : s.types.SplitsInstalled)
include hroom hs

theorem Eval.split_makes (text separator : String) (span : Span) :
    (send (.str text) "split" [.str separator] none span).MakesTexts s
      ((Text.split separator.toList text.toList).map String.ofList) := by
  have hoffers : s.types.offersFirst .string "split" ([Routine.splitWords] ++
      Routine.splitText :: []) = true :=
    hs.split.offersFirst (List.mem_singleton_self _) (by decide +kernel)
  have hcall : (Task.send "split" ⟨.str text, [.str separator], none, span⟩).CallsFor
      (TextRoutine.split.run ⟨.str text, [.str separator], none, span⟩) s :=
    .first hoffers rfl rfl (by simp [Routine.splitWords, Routine.fixed, Signature.mismatch,
      Expect.accepts, Signature.countFits]) rfl hroom
  exact .perform (hcall.yields (State.lasting_hasTexts _) fun held frame ↦
    TextRoutine.pieces_makes _ _)

theorem Eval.chars_makes (text : String) (span : Span) :
    (send (.str text) "chars" [] none span).MakesTexts s
      (text.toList.map fun c ↦ String.ofList [c]) := by
  have hoffers : s.types.offers .string Routine.textChars = true :=
    hs.chars.offers (List.mem_singleton_self _) (by decide +kernel)
  have hcall : (Task.send "chars" ⟨.str text, [], none, span⟩).CallsFor
      (TextRoutine.chars.run ⟨.str text, [], none, span⟩) s :=
    .offered (e := Routine.textChars) hoffers rfl rfl rfl hroom
  refine .perform (hcall.yields (State.lasting_hasTexts _) fun held frame ↦ ?_)
  have hmade := TextRoutine.pieces_makes (Text.split [] text.toList)
    { s with held, frames := s.frames.push frame }
  rwa [Text.split_empty, List.map_map] at hmade

theorem Eval.join_yields (h : s.HasTexts v texts) (separator : String) (span : Span) :
    (send v "join" [.str separator] none span).Yields s fun _ o ↦
      o = .ok (.str (separator.intercalate texts)) := by
  obtain ⟨l, rfl, hl⟩ := h
  have hoffers : s.types.offersFirst .list "join" ([Routine.joinPlain] ++
      Routine.joinText :: []) = true :=
    hs.join.offersFirst (List.mem_singleton_self _) (by decide +kernel)
  have hcall : (Task.send "join" ⟨.list l, [.str separator], none, span⟩).CallsFor
      (ListRoutine.join.run ⟨.list l, [.str separator], none, span⟩) s :=
    .first hoffers rfl rfl (by simp [Routine.joinPlain, Routine.fixed, Signature.mismatch,
      Expect.accepts, Signature.countFits]) rfl hroom
  refine .perform (hcall.yields (lasting_eq _) fun held frame ↦ ?_)
  have hjoined := ListRoutine.joined_gives (s := { s with
    held := ⟨[.list l, .str separator], none⟩ :: held, frames := s.frames.push frame })
    ⟨l, rfl, hl⟩ separator
  exact ⟨_, _, ListRoutine.gives_of_runOn (by decide) rfl (fun _ ↦ rfl) rfl hjoined, .refl _, rfl⟩

theorem Eval.joinPlain_yields (h : s.HasTexts v texts) (span : Span) :
    (send v "join" [] none span).Yields s fun _ o ↦ o = .ok (.str ("".intercalate texts)) := by
  obtain ⟨l, rfl, hl⟩ := h
  have hoffers : s.types.offersFirst .list "join" ([] ++
      Routine.joinPlain :: [Routine.joinText]) = true :=
    hs.join.offersFirst (List.mem_singleton_self _) (by decide +kernel)
  have hcall : (Task.send "join" ⟨.list l, [], none, span⟩).CallsFor
      (ListRoutine.joinPlain.run ⟨.list l, [], none, span⟩) s :=
    .first hoffers rfl rfl (by simp) rfl hroom
  refine .perform (hcall.yields (lasting_eq _) fun held frame ↦ ?_)
  have hjoined := ListRoutine.joined_gives (s := { s with
    held := ⟨[.list l], none⟩ :: held, frames := s.frames.push frame }) ⟨l, rfl, hl⟩ ""
  exact ⟨_, _, ListRoutine.gives_of_runOn (by decide) rfl (fun _ ↦ rfl) rfl hjoined, .refl _, rfl⟩

end

/-- A list of strings as what can be compared. -/
def Content.ofTexts (texts : List String) : Content := .list (texts.map fun t ↦ .leaf (.str t))

theorem State.HasTexts.content (h : s.HasTexts v texts) :
    (Content.ofTexts texts).In s.lists v := by
  obtain ⟨l, rfl, hl⟩ := h
  refine ⟨l, _, rfl, hl, ?_⟩
  rw [Content.allIn_iff_forall₂, List.forall₂_map_left_iff, List.forall₂_map_right_iff,
    List.forall₂_same]
  exact fun _ _ ↦ rfl

theorem Content.depth_ofTexts (texts : List String) : (ofTexts texts).depth = 1 := by
  have hflat (texts : List String) : depthOf (texts.map fun t ↦ .leaf (.str t)) = 0 := by
    induction texts with
    | nil => rfl
    | cons t texts ih => rw [List.map_cons, depthOf, ih]; rfl
  rw [ofTexts, depth, hflat]

theorem Eval.send_equal_same {c : Content} {w : Value} (hs : s.types.EqualsInstalled)
    (hv : c.Fits s v) (hw : c.Fits s w) (hroom : s.frames.size < s.config.maxCallDepth)
    (span : Span) :
    (send v "==" [w] none span).Yields s fun _ o ↦ o = .ok (.bool true) := by
  obtain ⟨b, hgives, hb⟩ := Content.send_equal c hs hv hw hroom span
  obtain rfl := hb.mpr rfl
  exact ⟨_, s, hgives, .refl s, rfl⟩

/-- Taking a text apart and putting it together again. -/
def Eval.splitJoined (text separator : String) (span : Span) : Eval Value := do
  let parts ← send (.str text) "split" [.str separator] none span
  send parts "join" [.str separator] none span

/-- Putting a list of texts together and taking it apart again. -/
def Eval.joinSplit (v : Value) (separator : String) (span : Span) : Eval Value := do
  let whole ← send v "join" [.str separator] none span
  send whole "split" [.str separator] none span

section

variable (hroom : s.frames.size < s.config.maxCallDepth) (hs : s.types.SplitsInstalled)
include hroom hs

theorem Eval.splitJoined_yields (text separator : String) (span : Span) :
    (splitJoined text separator span).Yields s fun _ o ↦ o = .ok (.str text) := by
  refine (split_makes hroom hs text separator span).bind_ok fun s₁ parts hgrows hparts ↦ ?_
  have hjoined := join_yields (hgrows.room hroom) (hgrows.types ▸ hs) hparts separator span
  suffices hsame : separator.intercalate
      ((Text.split separator.toList text.toList).map String.ofList) = text by
    rwa [hsame] at hjoined
  apply String.toList_injective
  rw [String.toList_intercalate, List.map_map]
  have hid : String.toList ∘ String.ofList = id := funext fun _ ↦ String.toList_ofList
  rw [hid, List.map_id]
  by_cases hsep : separator.toList = []
  · rw [hsep, Text.split_empty, Text.intercalate_nil, Text.flatten_singletons]
  · exact (Text.split_cut hsep _).intercalate

theorem Eval.joinSplit_makes {separator : String} (hsep : separator ≠ "") (hne : texts ≠ [])
    (hfree : ∀ text ∈ texts, ∀ c ∈ separator.toList, c ∉ text.toList)
    (h : s.HasTexts v texts) (span : Span) :
    (joinSplit v separator span).MakesTexts s texts := by
  refine (join_yields hroom hs h separator span).bind_eq fun s₁ hgrows ↦ ?_
  have hmade := split_makes (hgrows.room hroom) (hgrows.types ▸ hs) (separator.intercalate texts)
    separator span
  suffices hsame : (Text.split separator.toList (separator.intercalate texts).toList).map
      String.ofList = texts by
    rwa [hsame] at hmade
  have hsep : separator.toList ≠ [] := by simpa using hsep
  obtain ⟨first, more, rfl⟩ := List.exists_cons_of_ne_nil hne
  have hcut : Text.Cut separator.toList
      (separator.toList.intercalate (first.toList :: more.map String.toList))
      (first.toList :: more.map String.toList) :=
    .of_intercalate hsep (by simpa using hfree)
  rw [String.toList_intercalate, List.map_cons, hcut.unique (Text.split_cut hsep _),
    ← List.map_cons, List.map_map]
  have hid : String.ofList ∘ String.toList = id := funext fun _ ↦ String.ofList_toList
  rw [hid, List.map_id]

theorem Eval.charsJoined_yields (text : String) (span : Span) :
    Eval.Yields (do
      let cs ← send (.str text) "chars" [] none span
      send cs "join" [] none span) s fun _ o ↦ o = .ok (.str text) := by
  refine (chars_makes hroom hs text span).bind_ok fun s₁ cs hgrows hcs ↦ ?_
  have hjoined := joinPlain_yields (hgrows.room hroom) (hgrows.types ▸ hs) hcs span
  suffices hsame : "".intercalate (text.toList.map fun c ↦ String.ofList [c]) = text by
    rwa [hsame] at hjoined
  apply String.toList_injective
  have hsingle : String.toList ∘ (fun c ↦ String.ofList [c]) = ([·]) :=
    funext fun _ ↦ String.toList_ofList
  rw [String.toList_intercalate, List.map_map, hsingle]
  exact (Text.intercalate_nil _).trans (Text.flatten_singletons _)

end

end

/-- Splitting a text and joining the pieces gives the text again. With no separator the pieces are
the characters; no piece has another separator in it, and there is one piece more than there are
occurrences of it from the left. Joining texts that have no character of the separator and splitting
what comes of it gives them again, and joining the characters of a text gives the text. Where
values are compared as from the start, what is given again is equal to what there was. -/
theorem splitting_inverse {s : State} (hroom : s.frames.size < s.config.maxCallDepth)
    (hs : s.types.SplitsInstalled) (span : Span) :
    (∀ text separator : String,
      (∃ pieces : List String,
        (send (.str text) "split" [.str separator] none span).MakesTexts s pieces ∧
        (separator = "" → pieces = text.toList.map fun c ↦ String.ofList [c]) ∧
        (separator ≠ "" → (∀ piece ∈ pieces, ¬ separator.toList <:+: piece.toList) ∧
          ∃ places, (∀ places', Text.Occurrences separator.toList text.toList 0 places' ↔
            places' = places) ∧ pieces.length = places.length + 1)) ∧
      (splitJoined text separator span).Yields s (fun _ o ↦ o = .ok (.str text)) ∧
      (s.types.EqualsInstalled → Eval.Yields (do
        send (← splitJoined text separator span) "==" [.str text] none span) s fun _ o ↦
          o = .ok (.bool true))) ∧
    (∀ (l : ListId) (texts : List String) (separator : String), separator ≠ "" → texts ≠ [] →
      (∀ text ∈ texts, ∀ c ∈ separator.toList, c ∉ text.toList) → s.HasTexts (.list l) texts →
      (joinSplit (.list l) separator span).MakesTexts s texts ∧
      (s.types.EqualsInstalled → Eval.Yields (do
        send (← joinSplit (.list l) separator span) "==" [.list l] none span) s fun _ o ↦
          o = .ok (.bool true))) ∧
    ∀ text : String, Eval.Yields (do
      let cs ← send (.str text) "chars" [] none span
      send cs "join" [] none span) s fun _ o ↦ o = .ok (.str text) := by
  refine ⟨fun text separator ↦ ⟨?_, splitJoined_yields hroom hs text separator span, fun heq ↦ ?_⟩,
    fun l texts separator hsep hne hfree h ↦ ?_, fun text ↦ charsJoined_yields hroom hs text span⟩
  · refine ⟨_, split_makes hroom hs text separator span, ?_, fun hsep ↦ ?_⟩
    · rintro rfl
      rw [String.toList_empty, Text.split_empty, List.map_map]
      rfl
    · have hsep : separator.toList ≠ [] := by simpa using hsep
      have hcut := Text.split_cut hsep text.toList
      obtain ⟨places, hplaces, hlength⟩ := hcut.occurrences []
      refine ⟨fun piece hpiece ↦ ?_, places, fun places' ↦ ⟨hplaces.unique, ?_⟩, ?_⟩
      · obtain ⟨chars, hchars, rfl⟩ := List.mem_map.mp hpiece
        rw [String.toList_ofList]
        exact hcut.not_infix hsep chars hchars
      · rintro rfl
        exact hplaces
      · rwa [List.length_map]
  · refine (splitJoined_yields hroom hs text separator span).bind_eq fun s₁ hgrows ↦ ?_
    have hfits : (Content.leaf (.str text)).Fits s₁ (.str text) := ⟨rfl, (hgrows.room hroom).le⟩
    exact send_equal_same (hgrows.types ▸ heq) hfits hfits (hgrows.room hroom) span
  · have hmade := joinSplit_makes hroom hs hsep hne hfree h span
    refine ⟨hmade, fun heq ↦ hmade.bind_ok fun s₁ v hgrows hv ↦ ?_⟩
    have hfits {w : Value} (hw : s₁.HasTexts w texts) : (Content.ofTexts texts).Fits s₁ w :=
      ⟨hw.content, by rw [Content.depth_ofTexts]; exact hgrows.room hroom⟩
    exact send_equal_same (hgrows.types ▸ heq) (hfits hv) (hfits (h.keeps hgrows.toKeeps))
      (hgrows.room hroom) span

/-- `"aaa"` has one occurrence of `"aa"`, and a list of two texts is found again. -/
theorem splitting_inverse_of_threeAs :
    let s : State := { State.initial .standard with lists := #[#[.str "", .str "a"]] }
    (splitJoined "aaa" "aa" .origin).Yields s (fun _ o ↦ o = .ok (.str "aaa")) ∧
      (∃ pieces : List String,
        (send (.str "aaa") "split" [.str "aa"] none .origin).MakesTexts s pieces ∧
          pieces.length = 2) ∧
      (joinSplit (.list ⟨0⟩) ", " .origin).MakesTexts s ["", "a"] := by
  intro s
  have hs : s.types.SplitsInstalled := ⟨fun _ _ ↦ rfl, fun _ _ ↦ rfl, fun _ _ ↦ rfl⟩
  obtain ⟨hsplit, hjoin, -⟩ := splitting_inverse (s := s) (by decide) hs .origin
  obtain ⟨⟨pieces, hmade, -, hpieces⟩, hback, -⟩ := hsplit "aaa" "aa"
  obtain ⟨-, places, hplaces, hlength⟩ := hpieces (by decide)
  have hone : Text.Occurrences ['a', 'a'] ['a', 'a', 'a'] 0 [0] :=
    .next (Nat.le_refl 0) (by decide) (by omega) (.none fun i hi hfound ↦ by
      have hlength := hfound.length_le
      rw [List.length_drop, List.length_cons, List.length_cons] at hlength
      simp at hi hlength
      omega)
  refine ⟨hback, ⟨pieces, hmade, ?_⟩, (hjoin ⟨0⟩ ["", "a"] ", " ?_ ?_ ?_ ⟨⟨0⟩, rfl, rfl⟩).1⟩
  · rw [hlength, ← (hplaces _).mp hone]
    rfl
  · decide
  · decide
  · simp

end Quill
