import Mathlib.Data.List.Basic

/-! UTF-8, read by a decoder that goes on after an error: a byte at which no character starts is read alone. -/

namespace Utf8

def encode (cs : List Char) : List UInt8 := cs.flatMap String.utf8EncodeChar

/-- The character that a byte string starts with. -/
def first (b : List UInt8) : Option Char := (b.take 4).toByteArray.utf8DecodeChar? 0

/-- The first `n` characters of a byte string. `none` stands for a byte at which no character starts. -/
def runesUpTo : Nat → List UInt8 → List (Option Char)
  | 0, _ => []
  | _ + 1, [] => []
  | n + 1, b :: bs =>
    match first (b :: bs) with
    | some c => some c :: runesUpTo n ((b :: bs).drop c.utf8Size)
    | none => none :: runesUpTo n bs

def runes (b : List UInt8) : List (Option Char) := runesUpTo b.length b

def Valid (b : List UInt8) : Prop := none ∉ runes b

instance (b : List UInt8) : Decidable (Valid b) := inferInstanceAs (Decidable (¬_))

/-! ### The first character -/

theorem encodeChar_ne_nil (c : Char) : String.utf8EncodeChar c ≠ [] := by
  rw [← List.length_pos_iff_ne_nil, String.length_utf8EncodeChar]
  exact c.utf8Size_pos

theorem first_encodeChar (c : Char) (b : List UInt8) : first (String.utf8EncodeChar c ++ b) = some c := by
  have short : (String.utf8EncodeChar c).length ≤ 4 := by
    rw [String.length_utf8EncodeChar]
    exact c.utf8Size_le_four
  rw [first, List.take_append, List.take_of_length_le short, List.toByteArray_append]
  exact ByteArray.utf8DecodeChar?_utf8EncodeChar_append

theorem first_eq_some {b : List UInt8} {c : Char} (h : first b = some c) :
    ∃ rest, b = String.utf8EncodeChar c ++ rest := by
  obtain ⟨l, hl⟩ := ByteArray.exists_of_utf8DecodeChar?_eq_some h
  have start : b.take 4 = String.utf8EncodeChar c ++ l.data.toList := by
    have := congrArg (fun a : ByteArray => a.data.toList) hl
    simpa only [ByteArray.toList_data_append, List.toList_data_toByteArray] using this
  exact ⟨l.data.toList ++ b.drop 4, by rw [← List.append_assoc, ← start, List.take_append_drop]⟩

/-! ### All characters -/

theorem runesUpTo_eq : ∀ {n : Nat} {b : List UInt8}, b.length ≤ n → runesUpTo n b = runes b := by
  -- fuel that is at least the length of what is left does not matter
  have enough : ∀ (n m : Nat) (b : List UInt8), b.length ≤ n → b.length ≤ m → runesUpTo n b = runesUpTo m b := by
    intro n
    induction n with
    | zero =>
      intro m b hn _
      obtain rfl := List.length_eq_zero_iff.mp (Nat.le_zero.mp hn)
      cases m <;> rfl
    | succ n ih =>
      intro m b hn hm
      cases b with
      | nil => cases m <;> rfl
      | cons b bs =>
        obtain ⟨m, rfl⟩ : ∃ k, m = k + 1 := Nat.exists_eq_add_one_of_ne_zero (by simp at hm; omega)
        simp only [List.length_cons] at hn hm
        unfold runesUpTo
        cases hc : first (b :: bs) with
        | none => simp only [ih m bs (by omega) (by omega)]
        | some c =>
          have pos := c.utf8Size_pos
          have shorter : ((b :: bs).drop c.utf8Size).length ≤ bs.length := by
            rw [List.length_drop, List.length_cons]
            omega
          simp only [ih m ((b :: bs).drop c.utf8Size) (by omega) (by omega)]
  exact fun {n b} h => enough n b.length b h (Nat.le_refl _)

theorem runes_encodeChar_append (c : Char) (b : List UInt8) :
    runes (String.utf8EncodeChar c ++ b) = some c :: runes b := by
  obtain ⟨x, xs, hx⟩ := List.exists_cons_of_ne_nil (encodeChar_ne_nil c)
  have head := first_encodeChar c b
  have size := String.length_utf8EncodeChar c
  have rest : (x :: (xs ++ b)).drop c.utf8Size = b := by
    rw [← List.cons_append, ← hx, ← size, List.drop_left]
  rw [hx, List.cons_append] at head ⊢
  rw [runes, List.length_cons, runesUpTo, head]
  simp only [rest]
  rw [runesUpTo_eq (by simp)]

theorem runes_of_first_none {b : UInt8} {bs : List UInt8} (h : first (b :: bs) = none) :
    runes (b :: bs) = none :: runes bs := by
  rw [runes, List.length_cons, runesUpTo, h]
  rfl

theorem runes_encode_append (cs : List Char) (b : List UInt8) : runes (encode cs ++ b) = cs.map some ++ runes b := by
  induction cs with
  | nil => rfl
  | cons c cs ih =>
    rw [encode, List.flatMap_cons, List.append_assoc, runes_encodeChar_append, ← encode, ih, List.map_cons,
      List.cons_append]

@[simp] theorem runes_encode (cs : List Char) : runes (encode cs) = cs.map some := by
  simpa [show runes [] = [] from rfl] using runes_encode_append cs []

theorem encode_injective : Function.Injective encode := by
  intro cs cs' h
  have := congrArg runes h
  rw [runes_encode, runes_encode] at this
  exact List.map_injective_iff.mpr (fun _ _ => Option.some.inj) this

theorem length_encode_le (cs : List Char) : (encode cs).length ≤ 4 * cs.length := by
  induction cs with
  | nil => simp [encode]
  | cons c cs ih =>
    have short := c.utf8Size_le_four
    rw [encode, List.flatMap_cons, ← encode, List.length_append, String.length_utf8EncodeChar, List.length_cons]
    omega

theorem length_le_encode (cs : List Char) : cs.length ≤ (encode cs).length := by
  induction cs with
  | nil => exact Nat.zero_le _
  | cons c cs ih =>
    have pos := c.utf8Size_pos
    rw [encode, List.flatMap_cons, ← encode, List.length_append, String.length_utf8EncodeChar, List.length_cons]
    omega

theorem valid_encode (cs : List Char) : Valid (encode cs) := by simp [Valid]

theorem Valid.exists_encode {b : List UInt8} (h : Valid b) : ∃ cs, b = encode cs := by
  induction hn : b.length using Nat.strongRecOn generalizing b with
  | _ n ih =>
  cases b with
  | nil => exact ⟨[], rfl⟩
  | cons x xs =>
    cases hc : first (x :: xs) with
    | none => exact absurd (by simp [runes_of_first_none hc]) h
    | some c =>
      obtain ⟨rest, hrest⟩ := first_eq_some hc
      have shorter : rest.length < n := by
        have := c.utf8Size_pos
        rw [← hn, hrest, List.length_append, String.length_utf8EncodeChar]
        omega
      rw [Valid, hrest, runes_encodeChar_append, List.mem_cons, not_or] at h
      obtain ⟨cs, rfl⟩ := ih _ shorter h.2 rfl
      exact ⟨c :: cs, hrest⟩

theorem valid_encode_append {cs : List Char} {b : List UInt8} : Valid (encode cs ++ b) ↔ Valid b := by
  simp [Valid, runes_encode_append]

theorem Valid.append {a b : List UInt8} (left : Valid a) (right : Valid b) : Valid (a ++ b) := by
  obtain ⟨cs, rfl⟩ := left.exists_encode
  exact valid_encode_append.mpr right

/-! ### Cutting at a byte -/

end Utf8
