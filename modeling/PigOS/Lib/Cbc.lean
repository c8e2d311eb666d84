import Mathlib.Data.List.Basic

/-!
# `Lib.Cbc` — cipher block chaining over an arbitrary type of blocks

The block cipher and the operation that mixes in the chaining value are parameters. If decryption
inverts encryption for equal initial values, then with unequal ones only the first block comes out
wrong (`tail_decrypt_encrypt`).
-/

namespace Cbc

variable {β : Type*} (mix : β → β → β)

def encrypt (enc : β → β) : β → List β → List β
  | _, [] => []
  | iv, b :: bs => enc (mix b iv) :: encrypt enc (enc (mix b iv)) bs

def decrypt (dec : β → β) : β → List β → List β
  | _, [] => []
  | iv, c :: cs => mix (dec c) iv :: decrypt dec c cs

@[simp] lemma length_encrypt (enc : β → β) (iv : β) (bs : List β) : (encrypt mix enc iv bs).length = bs.length := by
  induction bs generalizing iv with
  | nil => rfl
  | cons b bs ih => simp [encrypt, ih]

@[simp] lemma length_decrypt (dec : β → β) (iv : β) (cs : List β) : (decrypt mix dec iv cs).length = cs.length := by
  induction cs generalizing iv with
  | nil => rfl
  | cons c cs ih => simp [decrypt, ih]

/-- Past the first block decryption does not depend on the initial value. -/
lemma tail_decrypt (dec : β → β) (iv iv' : β) (cs : List β) :
    (decrypt mix dec iv cs).tail = (decrypt mix dec iv' cs).tail := by
  cases cs with
  | nil => rfl
  | cons c cs => rfl

/-- **A wrong initial value spoils the first block only.** -/
theorem tail_decrypt_encrypt {enc dec : β → β}
    (hinv : ∀ iv bs, decrypt mix dec iv (encrypt mix enc iv bs) = bs) (iv iv' : β) (bs : List β) :
    (decrypt mix dec iv' (encrypt mix enc iv bs)).tail = bs.tail := by
  rw [tail_decrypt mix dec iv' iv, hinv]

/-- What goes into the block cipher. -/
def inputs (enc : β → β) : β → List β → List β
  | _, [] => []
  | iv, b :: bs => mix b iv :: inputs enc (enc (mix b iv)) bs

/-- Decryption restores the blocks exactly when the cipher is inverted on each of its inputs. -/
lemma decrypt_encrypt_eq_iff {enc dec : β → β} (hmix : ∀ b iv, mix (mix b iv) iv = b) (iv : β) (bs : List β) :
    decrypt mix dec iv (encrypt mix enc iv bs) = bs ↔ ∀ x ∈ inputs mix enc iv bs, dec (enc x) = x := by
  induction bs generalizing iv with
  | nil => exact iff_of_true rfl (fun x hx => absurd hx List.not_mem_nil)
  | cons b bs ih =>
    have hhead : mix (dec (enc (mix b iv))) iv = b ↔ dec (enc (mix b iv)) = mix b iv := by
      constructor
      · intro h
        rw [← hmix (dec (enc (mix b iv))) iv, h]
      · intro h
        rw [h, hmix]
    show mix (dec (enc (mix b iv))) iv :: _ = b :: bs ↔ _
    rw [List.cons.injEq, ih, hhead, inputs, List.forall_mem_cons]

/-- Decryption inverts encryption when the cipher is inverted and mixing is an involution. -/
lemma decrypt_encrypt {enc dec : β → β} (hdec : ∀ b, dec (enc b) = b) (hmix : ∀ b iv, mix (mix b iv) iv = b)
    (iv : β) (bs : List β) : decrypt mix dec iv (encrypt mix enc iv bs) = bs :=
  (decrypt_encrypt_eq_iff mix hmix iv bs).mpr (fun x _ => hdec x)

end Cbc
