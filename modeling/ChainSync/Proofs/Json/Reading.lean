import Mathlib
import ChainSync.Proofs.Decimal
import ChainSync.Proofs.Json.Text

/-!
# JSON values read back as they were printed

`WellFormed v` says that the numbers of the value `v` are those that `nat` writes, and its strings and
names those that `text` writes. The reader finds such a value where it was printed and stops right
behind it, as long as what follows does not extend a number (`WellFormed.reads`). So the printed text,
read as a whole, is the value (`parse?_print`).
-/

namespace ChainSync.Json
open Ascii

/-- The values whose numbers, strings and names are written as `nat` and `text` write them. -/
inductive WellFormed : Json → Prop where
  | null :
    WellFormed .null
  | bool (b : Bool) :
    WellFormed (.bool b)
  | nat (n : Nat) :
    WellFormed (nat n)
  | text (s : String) :
    WellFormed (text s)
  | array {vs : List Json} :
    (∀ v ∈ vs, WellFormed v) →
    WellFormed (.array vs)
  | object {ms : List (Bytes × Json)} :
    (∀ m ∈ ms, ∃ s, m.1 = escape s) → (∀ m ∈ ms, WellFormed m.2) →
    WellFormed (.object ms)

/-- What may follow a number: nothing that extends it. -/
def Ends (rest : Bytes) : Prop :=
  ∀ b ∈ rest.head?, Decimal.isDigit b = false ∧ b ≠ point ∧ b ≠ letterE ∧ b ≠ capitalE

/-- A number may stand at the end. -/
lemma ends_nil : Ends [] := by
  intro b hb
  cases hb

/-- A number may stand before a byte that does not extend it. -/
lemma ends_cons {b : UInt8} {rest : Bytes}
    (h : Decimal.isDigit b = false ∧ b ≠ point ∧ b ≠ letterE ∧ b ≠ capitalE) :
    Ends (b :: rest) := by
  intro c hc
  cases hc
  exact h

/-- A number may stand before the rest of an array. -/
lemma ends_printItems (vs : List Json) (rest : Bytes) : Ends (printItems vs ++ rest) := by
  cases vs with
  | nil =>
    rw [printItems]
    exact ends_cons (by decide)
  | cons v vs =>
    rw [printItems]
    exact ends_cons (by decide)

/-- A number may stand before the rest of an object. -/
lemma ends_printMembers (ms : List (Bytes × Json)) (rest : Bytes) :
    Ends (printMembers ms ++ rest) := by
  cases ms with
  | nil =>
    rw [printMembers]
    exact ends_cons (by decide)
  | cons m ms =>
    rw [printMembers]
    exact ends_cons (by decide)

/-! ## Numbers -/

/-- The digits of a number end where it ends. -/
lemma span_encode (n : Nat) {rest : Bytes} (hr : Ends rest) :
    (Decimal.encode n ++ rest).span Decimal.isDigit = (Decimal.encode n, rest) := by
  have hd : ∀ b ∈ Decimal.encode n, Decimal.isDigit b = true := fun b =>
    Decimal.isDigit_of_mem_encode
  have hstop : rest.takeWhile Decimal.isDigit = [] ∧ rest.dropWhile Decimal.isDigit = rest := by
    cases rest with
    | nil => exact ⟨rfl, rfl⟩
    | cons b rest => simp [(hr b rfl).1]
  rw [List.span_eq_takeWhile_dropWhile, List.takeWhile_append_of_pos hd,
    List.dropWhile_append_of_pos hd, hstop.1, hstop.2, List.append_nil]

/-- A number is scanned up to its end. -/
lemma scanWhole_encode (n : Nat) {rest : Bytes} (hr : Ends rest) :
    scanWhole (Decimal.encode n ++ rest) = some (Decimal.encode n, rest) := by
  unfold scanWhole
  split
  · rename_i rest' hzero
    cases hn : Decimal.encode n with
    | nil => exact absurd hn (Decimal.encode_ne_nil n)
    | cons b ds =>
      rw [hn] at hzero
      cases hzero
      obtain rfl := Decimal.eq_nil_of_encode_eq_zero hn
      rfl
  · rw [span_encode n hr]
    cases hn : Decimal.encode n with
    | nil => exact absurd hn (Decimal.encode_ne_nil n)
    | cons b ds => rfl

/-- No fraction stands behind a number. -/
lemma scanFraction_ends {rest : Bytes} (hr : Ends rest) : scanFraction rest = some ([], rest) := by
  unfold scanFraction
  split
  · exact absurd rfl (hr point rfl).2.1
  · rfl

/-- No exponent stands behind a number. -/
lemma scanExponent_ends {rest : Bytes} (hr : Ends rest) : scanExponent rest = some ([], rest) := by
  cases rest with
  | nil => rfl
  | cons b rest =>
    obtain ⟨-, -, he, hE⟩ := hr b rfl
    rw [scanExponent, if_neg (by simp [he, hE])]

/-- Without a fraction and an exponent, a number is its digits. -/
lemma scanUnsigned_encode (n : Nat) {rest : Bytes} (hr : Ends rest) :
    scanUnsigned (Decimal.encode n ++ rest) = some (Decimal.encode n, rest) := by
  simp [scanUnsigned, scanWhole_encode n hr, scanFraction_ends hr, scanExponent_ends hr]

/-- The digits of a number begin with a digit. -/
lemma encode_eq_cons (n : Nat) :
    ∃ b ds, Decimal.encode n = b :: ds ∧ Decimal.isDigit b = true := by
  cases hn : Decimal.encode n with
  | nil => exact absurd hn (Decimal.encode_ne_nil n)
  | cons b ds =>
    refine ⟨b, ds, rfl, Decimal.isDigit_of_mem_encode (n := n) ?_⟩
    rw [hn]
    exact List.mem_cons_self

/-- Without a sign, a number is its digits. -/
lemma scanNumber_encode (n : Nat) {rest : Bytes} (hr : Ends rest) :
    scanNumber (Decimal.encode n ++ rest) = some (Decimal.encode n, rest) := by
  obtain ⟨b, ds, hn, hb⟩ := encode_eq_cons n
  have hu := scanUnsigned_encode n hr
  rw [hn] at hu ⊢
  unfold scanNumber
  split
  · rename_i hminus
    cases hminus
    cases hb
  · exact hu

/-! ## Values -/

/-- Nothing is skipped before a byte that is no blank. -/
lemma skipBlanks_cons {b : UInt8} {bs : Bytes} (h : isBlank b = false) :
    skipBlanks (b :: bs) = b :: bs := by
  simp [skipBlanks, h]

/-- A digit is no blank. -/
lemma isBlank_digit {b : UInt8} (hb : Decimal.isDigit b = true) : isBlank b = false := by
  cases h : isBlank b with
  | false => rfl
  | true =>
    simp only [isBlank, Bool.or_eq_true, decide_eq_true_eq] at h
    rcases h with ((rfl | rfl) | rfl) | rfl
    all_goals cases hb

/-- A number is read as it is printed. -/
lemma value_nat (fuel n : Nat) {rest : Bytes} (hr : Ends rest) :
    value (fuel + 1) (Decimal.encode n ++ rest) = some (nat n, rest) := by
  obtain ⟨b, ds, hn, hb⟩ := encode_eq_cons n
  have hs := scanNumber_encode n hr
  have hskip : skipBlanks (Decimal.encode n ++ rest) = Decimal.encode n ++ rest := by
    rw [hn]
    exact skipBlanks_cons (isBlank_digit hb)
  rw [value, hskip, hn, List.cons_append]
  -- no other value begins with a digit
  split
  case h_7 =>
    rw [← List.cons_append, ← hn, hs]
    rfl
  all_goals
    rename_i heq
    obtain rfl := (List.cons.inj heq).1
    cases hb

/-- A string is read as it is printed. -/
lemma value_text (fuel : Nat) (s : String) (rest : Bytes) :
    value (fuel + 1) (quote :: (escape s ++ quote :: rest)) = some (text s, rest) := by
  rw [value, skipBlanks_cons rfl]
  change (scanString [] (escape s ++ quote :: rest)).map _ = _
  rw [scanString_escape]
  rfl

/-- The first byte of a printed value is neither a blank nor the end of an array. -/
lemma WellFormed.print_eq_cons {v : Json} (wf : WellFormed v) :
    ∃ b bs, v.print = b :: bs ∧ isBlank b = false ∧ b ≠ closeBracket := by
  cases wf with
  | null => exact ⟨_, _, by rw [print], rfl, by decide⟩
  | bool b => cases b <;> exact ⟨_, _, by rw [print], rfl, by decide⟩
  | nat n =>
    obtain ⟨b, ds, hn, hb⟩ := encode_eq_cons n
    refine ⟨b, ds, by rw [Json.nat, print, hn], isBlank_digit hb, ?_⟩
    rintro rfl
    cases hb
  | text s => exact ⟨_, _, by rw [Json.text, print], rfl, by decide⟩
  | @array vs _ => cases vs <;> exact ⟨_, _, by rw [print], rfl, by decide⟩
  | @object ms _ _ => cases ms <;> exact ⟨_, _, by rw [print], rfl, by decide⟩

/-- The reader finds the value where it is printed, and stops behind it. -/
def Reads (v : Json) : Prop :=
  ∀ (fuel : Nat) (rest : Bytes), 2 * v.print.length ≤ fuel → Ends rest →
    value fuel (v.print ++ rest) = some (v, rest)

/-- The items of an array are read one by one, up to the bracket that closes it. -/
lemma items_print {v : Json} {vs : List Json} (h : ∀ w ∈ v :: vs, Reads w) (fuel : Nat)
    (hf : 2 * (v.print.length + (printItems vs).length) ≤ fuel) (done : List Json)
    (rest : Bytes) :
    items fuel done (v.print ++ (printItems vs ++ rest)) =
      some (.array (done.reverse ++ v :: vs), rest) := by
  induction vs generalizing v fuel done with
  | nil =>
    cases fuel with
    | zero => simp [printItems] at hf
    | succ fuel =>
      rw [printItems, List.length_singleton] at hf
      rw [items, h v List.mem_cons_self fuel _ (by omega) (ends_printItems [] rest), printItems]
      change some (Json.array (v :: done).reverse, rest) = _
      rw [List.reverse_cons]
  | cons w ws ih =>
    cases fuel with
    | zero => simp [printItems] at hf
    | succ fuel =>
      have hends := ends_printItems (w :: ws) rest
      rw [printItems, List.length_cons, List.length_append] at hf
      rw [items, h v List.mem_cons_self fuel _ (by omega) hends, printItems]
      change items fuel (v :: done) (w.print ++ printItems ws ++ rest) = _
      rw [List.append_assoc, ih (fun u hu => h u (List.mem_cons_of_mem v hu)) fuel (by omega),
        List.reverse_cons, List.append_assoc]
      rfl

/-- One member is read up to what follows its value. -/
lemma members_cons {fuel : Nat} {v : Json} {rest : Bytes}
    (hv : value fuel (v.print ++ rest) = some (v, rest)) (s : String)
    (done : List (Bytes × Json)) :
    members (fuel + 1) done (quote :: (escape s ++ quote :: colon :: (v.print ++ rest))) =
      match skipBlanks rest with
      | comma :: rest => members fuel ((escape s, v) :: done) rest
      | closeBrace :: rest => some (.object ((escape s, v) :: done).reverse, rest)
      | _ => none := by
  have hname := scanString_escape s (colon :: (v.print ++ rest))
  rw [members, skipBlanks_cons rfl]
  -- a quote opens the name
  split
  case h_2 hquote => exact absurd rfl (hquote _)
  case h_1 bs hquote =>
    obtain rfl := (List.cons.inj hquote).2
    simp only [hname]
    rw [skipBlanks_cons rfl]
    -- a colon stands before the value
    split
    case h_2 hcolon => exact absurd rfl (hcolon _)
    case h_1 bs hcolon =>
      obtain rfl := (List.cons.inj hcolon).2
      rewrite [hv]
      rfl

/-- The members of an object are read one by one, up to the brace that closes it. -/
lemma members_print {m : Bytes × Json} {ms : List (Bytes × Json)}
    (hname : ∀ m' ∈ m :: ms, ∃ s, m'.1 = escape s) (h : ∀ m' ∈ m :: ms, Reads m'.2) (fuel : Nat)
    (hf : 2 * (m.2.print.length + (printMembers ms).length) ≤ fuel)
    (done : List (Bytes × Json)) (rest : Bytes) :
    members fuel done
        (quote :: (m.1 ++ quote :: colon :: (m.2.print ++ (printMembers ms ++ rest)))) =
      some (.object (done.reverse ++ m :: ms), rest) := by
  obtain ⟨k, v⟩ := m
  obtain ⟨s, rfl : k = escape s⟩ := hname _ List.mem_cons_self
  have hv := h _ List.mem_cons_self
  dsimp only at hf hv ⊢
  induction ms generalizing s v fuel done with
  | nil =>
    cases fuel with
    | zero => simp [printMembers] at hf
    | succ fuel =>
      rw [printMembers, List.length_singleton] at hf
      rw [members_cons (hv fuel _ (by omega) (ends_printMembers [] rest)), printMembers]
      change some (Json.object ((escape s, v) :: done).reverse, rest) = _
      rw [List.reverse_cons]
  | cons w ws ih =>
    obtain ⟨k', v'⟩ := w
    obtain ⟨s', rfl : k' = escape s'⟩ := hname _ (List.mem_cons_of_mem _ List.mem_cons_self)
    have hv' := h _ (List.mem_cons_of_mem _ List.mem_cons_self)
    cases fuel with
    | zero => simp [printMembers] at hf
    | succ fuel =>
      have hends := ends_printMembers ((escape s', v') :: ws) rest
      simp only [printMembers, List.length_cons, List.length_append] at hf
      rw [members_cons (hv fuel _ (by omega) hends), printMembers]
      have hrest := ih fuel ((escape s, v) :: done) v' s'
        (fun u hu => hname u (List.mem_cons_of_mem _ hu))
        (fun u hu => h u (List.mem_cons_of_mem _ hu)) (by omega) hv'
      simp only [List.reverse_cons, List.append_assoc] at hrest
      change members fuel ((escape s, v) :: done)
        (quote :: (escape s' ++ quote :: colon :: (v'.print ++ printMembers ws)) ++ rest) = _
      simpa using hrest

/-- What follows the bracket that opens an array closes it or is its first item. -/
lemma value_openBracket (fuel : Nat) (bs : Bytes) :
    value (fuel + 1) (openBracket :: bs) =
      match skipBlanks bs with
      | closeBracket :: rest => some (.array [], rest)
      | rest => items fuel [] rest := by
  rw [value, skipBlanks_cons rfl]
  rfl

/-- Behind an open bracket that is not closed at once come items. -/
lemma value_openBracket_cons {b : UInt8} (hb : isBlank b = false) (hclose : b ≠ closeBracket)
    (fuel : Nat) (bs : Bytes) :
    value (fuel + 1) (openBracket :: b :: bs) = items fuel [] (b :: bs) := by
  rw [value_openBracket, skipBlanks_cons hb]
  split
  · rename_i heq
    exact absurd (List.cons.inj heq).1 hclose
  · rfl

/-- Where a well-formed value is printed, it is read. -/
theorem WellFormed.reads {v : Json} (wf : WellFormed v) : Reads v := by
  induction wf with
  | null =>
    intro fuel rest hf _
    cases fuel with
    | zero => simp [print] at hf
    | succ fuel => rfl
  | bool b =>
    intro fuel rest hf _
    cases fuel with
    | zero => cases b <;> simp [print] at hf
    | succ fuel => cases b <;> rfl
  | nat n =>
    intro fuel rest hf hr
    cases fuel with
    | zero =>
      rw [Json.nat, print] at hf
      exact absurd (List.length_eq_zero_iff.1 (by omega)) (Decimal.encode_ne_nil n)
    | succ fuel => exact value_nat fuel n hr
  | text s =>
    intro fuel rest hf _
    cases fuel with
    | zero => simp [Json.text, print] at hf
    | succ fuel =>
      rw [Json.text, print, List.cons_append, List.append_assoc]
      exact value_text fuel s rest
  | @array vs hvs ih =>
    intro fuel rest hf _
    cases fuel with
    | zero => cases vs <;> simp [print] at hf
    | succ fuel =>
      cases vs with
      | nil => rfl
      | cons v vs =>
        obtain ⟨b, bs, hp, hb, hclose⟩ := (hvs v List.mem_cons_self).print_eq_cons
        rw [print, List.length_cons, List.length_append] at hf
        have hitems := items_print ih fuel (by omega) [] rest
        rw [print, List.cons_append, List.append_assoc]
        rw [hp, List.cons_append] at hitems ⊢
        rw [value_openBracket_cons hb hclose, hitems]
        rfl
  | @object ms hname hms ih =>
    intro fuel rest hf _
    cases fuel with
    | zero => cases ms <;> simp [print] at hf
    | succ fuel =>
      cases ms with
      | nil => rfl
      | cons m ms =>
        simp only [print, List.length_cons, List.length_append] at hf
        have hmembers := members_print hname ih fuel (by omega) [] rest
        have hopen : ∀ bs, value (fuel + 1) (openBrace :: quote :: bs) =
            members fuel [] (quote :: bs) := fun _ => rfl
        rw [print, List.cons_append, List.cons_append, hopen]
        simpa using hmembers

/-- The printed text is read as the value. -/
theorem parse?_print {v : Json} (wf : WellFormed v) : parse? v.print = some v := by
  have hv := wf.reads (2 * v.print.length + 2) [] (by omega) ends_nil
  rw [List.append_nil] at hv
  rw [parse?, hv]
  rfl

end ChainSync.Json
