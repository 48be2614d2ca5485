import Quill.Proofs.Grammar.Parts
import Quill.Proofs.Printing.Words

/-!
# What tokens are read

The names of tokens are spelled as names, and numbers have no sign. So what a program declares can
be written down again.
-/

namespace Quill

namespace Token

theorem nameLength_cons {suffixed : Bool} {c : Char} (hc : continuesName c = true)
    (text : List Char) : nameLength suffixed (c :: text) = nameLength suffixed text + 1 := by
  cases suffixed with
  | false => simp [nameLength, hc]
  | true =>
    simp only [nameLength, if_true, List.takeWhile_cons, hc, List.length_cons, List.drop_succ_cons]
    omega

theorem nameLength_stop {suffixed : Bool} {c : Char} (hc : continuesName c = false)
    (text : List Char) :
    nameLength suffixed (c :: text) = if suffixed then (nameSuffix (c :: text)).length else 0 := by
  cases suffixed <;> simp [nameLength, hc]

theorem nameSuffix_cases (text : List Char) :
    nameSuffix text = [] ∨
      ∃ c rest, text = c :: rest ∧ nameSuffix text = [c] ∧ (c = '?' ∨ c = '!') := by
  unfold nameSuffix
  split
  · exact .inr ⟨'?', _, rfl, rfl, .inl rfl⟩
  · exact .inl rfl
  · exact .inr ⟨'!', _, rfl, rfl, .inr rfl⟩
  · exact .inl rfl

theorem continuation_take (suffixed : Bool) (text : List Char) :
    continuation suffixed (text.take (nameLength suffixed text)) = true := by
  induction text with
  | nil => rw [List.take_nil, continuation]
  | cons c text ih =>
    cases hc : continuesName c with
    | true =>
      rw [nameLength_cons hc, List.take_succ_cons, continuation, if_pos hc]
      exact ih
    | false =>
      rw [nameLength_stop hc]
      cases suffixed with
      | false => rfl
      | true =>
        rw [if_pos rfl]
        obtain hs | ⟨d, rest, heq, hs, hd⟩ := nameSuffix_cases (c :: text)
        · rw [hs]
          rfl
        · obtain ⟨rfl, rfl⟩ := List.cons.inj heq
          rw [hs, List.length_singleton, List.take_one, List.head?_cons]
          obtain rfl | rfl := hd <;> rfl

theorem isName_take {start : Char → Bool} {suffixed : Bool} {c : Char} (hc : start c = true)
    (rest : List Char) :
    isName start suffixed
      (String.ofList ((c :: rest).take (1 + nameLength suffixed rest))) = true := by
  rw [Nat.add_comm, List.take_succ_cons, isName, String.toList_ofList]
  exact Bool.and_eq_true_iff.mpr ⟨hc, continuation_take suffixed rest⟩

theorem isName_marked {start : Char → Bool} {rest : List Char} (mark : Char)
    (hrest : rest.head?.any start = true) (hs : ∀ c, start c = true → continuesName c = true) :
    isName start true (markedName ((mark :: rest).take (1 + nameLength true rest))) = true := by
  cases rest with
  | nil => cases hrest
  | cons c rest =>
    have hc : start c = true := hrest
    rw [markedName, Nat.add_comm, List.take_succ_cons, List.drop_one, List.tail_cons,
      nameLength_cons (hs c hc), Nat.add_comm]
    exact isName_take hc rest

def Kind.IsRead : Kind → Prop
  | identifier name => isName startsName true name = true ∧ Keyword.ofText? name = none
  | constant name => isName Char.isUpper false name = true
  | symbol name => isName (fun c ↦ c.isAlpha || c == '_') true name = true
  | int n => 0 ≤ n
  | _ => True

theorem nameKind_isRead {read : List Char}
    (h : isName startsName true (String.ofList read) = true) : (nameKind read).IsRead := by
  unfold nameKind
  dsimp only
  split
  · trivial
  · exact ⟨h, ‹_›⟩

theorem ofNat_nonneg {n : Nat} (h : n ≤ maxInt) : 0 ≤ Int64.ofNat n := by
  unfold maxInt at h
  rw [Int64.le_iff_toInt_le, Int64.toInt_ofNat_of_lt (by omega)]
  exact Int.natCast_nonneg n

theorem scan_isRead {c : Char} {rest : List Char} {s : Scanned} (h : scan c rest = .ok s) :
    s.kind.IsRead := by
  cases scan_takes h with
  | int _ _ hv => exact ofNat_nonneg hv
  | symbol _ hrest => exact isName_marked c hrest fun d ↦ continuesName_of_symbol
  | name hc => exact nameKind_isRead (isName_take hc rest)
  | constant hc => exact isName_take hc rest
  | _ => trivial

theorem ofText?_isRead {text : String} {tokens : Array Token} (h : ofText? text = .ok tokens) :
    ∀ t ∈ tokens.toList, t.kind.IsRead := by
  obtain ⟨ts, e, htext, hts⟩ := ofText_tokenizes text
  rw [ofText?, htext] at h
  cases e with
  | some e => cases h
  | none =>
    cases h
    clear htext
    generalize Position.start = p, text.toList = chars, (none : Option LexError) = e at hts
    induction hts with
    | stop => exact List.forall_mem_singleton.mpr trivial
    | fail => exact List.forall_mem_nil _
    | token _ hs _ ih => exact List.forall_mem_cons.mpr ⟨scan_isRead hs, ih⟩

end Token

theorem Program.ofText?_sound {text : String} {p : Program} (h : Program.ofText? text = .ok p) :
    (Node.program p).All (Node.Sound Token.Kind.IsRead) := by
  unfold Program.ofText? at h
  cases htext : Token.ofText? text with
  | error e =>
    rw [htext] at h
    cases h
  | ok tokens =>
    have hkeeps := Grammar.ofTokens?_keeps ⟨Token.Kind.IsRead, fun _ ↦ True, fun _ _ ↦ trivial⟩
      trivial fun t ht ↦ ⟨Token.ofText?_isRead htext t ht, trivial⟩
    rw [htext] at h
    dsimp only at h
    cases hp : Program.ofTokens? tokens.toList with
    | error e =>
      rw [hp] at h
      cases h
    | ok q =>
      rw [hp] at h hkeeps
      cases h
      exact hkeeps

theorem Program.ofText?_declares {text : String} {p : Program} (h : Program.ofText? text = .ok p) :
    Expr.AllDeclare Token.Kind.IsRead p.body :=
  Expr.allDeclare_of_sound p.body fun _ he ↦ (ofText?_sound h).child (List.mem_map_of_mem he)

end Quill
