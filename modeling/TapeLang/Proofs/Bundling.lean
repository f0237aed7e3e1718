/-
# Bundles opened again

A bundle is closed by a trailer: a length of 64 bits with a sign, and the mark. Whatever bytes stand
before a trailer, the length alone decides: if it is at least one and no more than there are bytes,
so many of the last bytes before the trailer are the module, else the bundle is corrupt.
`Bundle.payloadLength_close` says this once, and what is extracted and what is left as the runner
follow from it. So a runner may be anything, also a bundle of its own: its module is found again and
it is found again itself, `Bundle.open_make`.
-/
import TapeLang.Bundle
import TapeLang.Proofs.ModuleFormat

namespace TapeLang

/-! ## Signed words as bytes -/

namespace Word

/-- A signed number of 64 bits is read back from its bytes. -/
theorem wrap_littleEndian {n : Int} (low : -2 ^ 63 ≤ n) (high : n < 2 ^ 63) :
    wrap (ofLittleEndian (littleEndian 8 (ofInt 8 n))) = n := by
  have cut : ((ofInt 8 n % Nat.pow 256 8 : Nat) : Int) = n % (Int64.size : Int) := by
    have size : Nat.pow 256 8 = Int64.size := rfl
    rw [ofInt, size, Int64.size]
    omega
  rw [ofLittleEndian_littleEndian, wrap_eq_bmod, cut, Int.emod_bmod, ← wrap_eq_bmod]
  exact wrap_eq_self low high

/-- Eight bytes are those of a signed number of 64 bits. -/
theorem exists_littleEndian {bytes : List UInt8} (eight : bytes.length = 8) :
    ∃ n : Int, -2 ^ 63 ≤ n ∧ n < 2 ^ 63 ∧ bytes = littleEndian 8 (ofInt 8 n) := by
  refine ⟨wrap (ofLittleEndian bytes), Int64.le_toInt _, Int64.toInt_lt _, ?_⟩
  have bound := ofLittleEndian_lt bytes
  have back := littleEndian_ofLittleEndian bytes
  rw [eight] at bound back
  have whole : ofInt 8 (wrap (ofLittleEndian bytes)) = ofLittleEndian bytes := by
    have size : (Nat.pow 256 8 : Nat) = Int64.size := rfl
    rw [ofInt, size, wrap_eq_bmod, Int.bmod_emod, Int64.size]
    omega
  rw [whole, back]

/-- A number below 2 ^ 64 is kept by eight bytes. -/
theorem ofInt_natCast {n : Nat} (fits : n < 2 ^ 64) : ofInt 8 n = n := by
  have size : (Nat.pow 256 8 : Nat) = 2 ^ 64 := rfl
  rw [ofInt, size]
  omega

end Word

/-! ## Trailers -/

namespace Bundle

/-- Bytes closed by a trailer with a signed length. -/
def close (front : List UInt8) (length : Int) : List UInt8 :=
  front ++ (Word.littleEndian 8 (Word.ofInt 8 length) ++ mark)

theorem length_mark : mark.length = 8 := rfl

@[simp] theorem length_close (front : List UInt8) (length : Int) :
    (close front length).length = front.length + 16 := by
  simp [close, length_mark]

/-- What ends in the mark, and has room for a length before it, is closed by a trailer. -/
theorem exists_close {data : List UInt8} (long : 16 ≤ data.length)
    (marked : data.drop (data.length - 8) = mark) :
    ∃ front length, -2 ^ 63 ≤ length ∧ length < 2 ^ 63 ∧ data = close front length := by
  have eight : ((data.drop (data.length - 16)).take 8).length = 8 := by
    rw [List.length_take, List.length_drop]
    omega
  obtain ⟨length, low, high, bytes⟩ := Word.exists_littleEndian eight
  refine ⟨data.take (data.length - 16), length, low, high, ?_⟩
  have last : (data.drop (data.length - 16)).drop 8 = mark := by
    rw [List.drop_drop, ← marked]
    congr 1
    omega
  rw [close, ← bytes, ← last, List.take_append_drop, List.take_append_drop]

/-- A bundle is its runner and the module, closed with the length of the module. -/
theorem make_eq_close (runner : List UInt8) (b : Bytecode)
    (small : (ModuleFile.encode b).length < 2 ^ 63) :
    make runner b = close (runner ++ ModuleFile.encode b) (ModuleFile.encode b).length := by
  rw [make, trailer, close, Word.ofInt_natCast (by omega)]

variable {length : Int}

/-- **The length in a trailer decides**: it is that of a module inside the bytes, or the trailer is
corrupt. -/
theorem payloadLength_close (front : List UInt8) (low : -2 ^ 63 ≤ length) (high : length < 2 ^ 63) :
    payloadLength (close front length) =
      if 1 ≤ length ∧ length ≤ front.length then .ok (some length.toNat)
        else .error .corruptTrailer := by
  have last : (close front length).drop front.length =
      Word.littleEndian 8 (Word.ofInt 8 length) ++ mark := List.drop_left
  have word : (Word.littleEndian 8 (Word.ofInt 8 length) ++ mark).take 8 =
      Word.littleEndian 8 (Word.ofInt 8 length) := List.take_left' (Word.length_littleEndian ..)
  have marked : (Word.littleEndian 8 (Word.ofInt 8 length) ++ mark).drop 8 = mark :=
    List.drop_left' (Word.length_littleEndian ..)
  have enough : ¬ front.length + 16 < trailerSize := by
    rw [trailerSize]
    omega
  simp only [payloadLength, length_close]
  rw [if_neg enough, trailerSize, Nat.add_sub_cancel, last, marked, if_neg (by simp), word,
    Word.wrap_littleEndian low high]
  by_cases inside : 1 ≤ length ∧ length ≤ front.length
  · rw [if_neg (by omega), if_pos inside]
  · rw [if_pos (by omega), if_neg inside]

/-- What is extracted in front of a trailer: the last bytes, as many as the length says, read as a
module. -/
theorem extract_close (front : List UInt8) (low : -2 ^ 63 ≤ length) (high : length < 2 ^ 63) :
    extract (close front length) =
      if 1 ≤ length ∧ length ≤ front.length then
        ((ModuleFile.decode
          (front.drop (front.length - length.toNat))).mapError .badModule).map some
      else .error .corruptTrailer := by
  rw [extract, payloadLength_close front low high]
  by_cases inside : 1 ≤ length ∧ length ≤ front.length
  · have payload :
        ((close front length).drop ((close front length).length - trailerSize - length.toNat)).take
        length.toNat = front.drop (front.length - length.toNat) := by
      rw [length_close, trailerSize, Nat.add_sub_cancel, close,
        List.drop_append_of_le_length (by omega)]
      refine List.take_left' ?_
      rw [List.length_drop]
      omega
    rw [if_pos inside, if_pos inside]
    dsimp only
    rw [payload]
    cases ModuleFile.decode (front.drop (front.length - length.toNat)) <;> rfl
  · rw [if_neg inside, if_neg inside]

/-- What is left as the runner in front of a trailer. -/
theorem runner_close (front : List UInt8) (low : -2 ^ 63 ≤ length) (high : length < 2 ^ 63) :
    runner (close front length) =
      if 1 ≤ length ∧ length ≤ front.length then .ok (front.take (front.length - length.toNat))
      else .error .corruptTrailer := by
  rw [runner, payloadLength_close front low high]
  by_cases inside : 1 ≤ length ∧ length ≤ front.length
  · rw [if_pos inside, if_pos inside]
    dsimp only
    rw [length_close, trailerSize, Nat.add_sub_cancel, close,
      List.take_append_of_le_length (by omega)]
  · rw [if_neg inside, if_neg inside]

/-! ## Bundles -/

/-- **A bundle opens again for any runner.** The program that was put behind a runner is extracted
from it, and the runner without it is what it was, so that another program put behind what is left
makes the same bundle as behind the runner itself. And whatever is closed by the mark is never taken
for bytes without a module: its length, a signed number of 64 bits, is that of the module that is
read, or the trailer is corrupt. -/
theorem open_make (front : List UInt8) (b : Bytecode) (storable : b.Storable)
    (small : (ModuleFile.encode b).length < 2 ^ 63) :
    extract (make front b) = .ok (some b) ∧
    runner (make front b) = .ok front ∧
    (∀ c, (runner (make front b)).map (make · c) = .ok (make front c)) ∧
    ∀ data : List UInt8, 16 ≤ data.length → data.drop (data.length - 8) = mark →
      extract data ≠ .ok none ∧
      ∃ (before : List UInt8) (length : Int), -2 ^ 63 ≤ length ∧ length < 2 ^ 63 ∧
        data = before ++ (Word.littleEndian 8 (Word.ofInt 8 length) ++ mark) ∧
        extract data =
          if 1 ≤ length ∧ length ≤ data.length - 16 then
            ((ModuleFile.decode
              (before.drop (before.length - length.toNat))).mapError .badModule).map some
          else .error .corruptTrailer := by
  have some_byte : 1 ≤ (ModuleFile.encode b).length := by
    rw [ModuleFile.encode_eq_signed, ModuleFile.length_signed]
    omega
  have inside : 1 ≤ ((ModuleFile.encode b).length : Int) ∧
      ((ModuleFile.encode b).length : Int) ≤ (front ++ ModuleFile.encode b).length := by
    rw [List.length_append]
    omega
  have place : (front ++ ModuleFile.encode b).length - (ModuleFile.encode b).length =
      front.length := by
    rw [List.length_append, Nat.add_sub_cancel]
  have stripped : runner (make front b) = .ok front := by
    rw [make_eq_close front b small, runner_close _ (by omega) (by omega), if_pos inside,
      Int.toNat_natCast, place, List.take_left]
  refine ⟨?_, stripped, fun c => by rw [stripped]; rfl, ?_⟩
  · have read : ModuleFile.decode (ModuleFile.encode b) = .ok b :=
      ModuleFile.decode_eq_ok_iff.2
        ⟨storable, [], by rw [List.append_nil, ModuleFile.encode_eq_signed]⟩
    rw [make_eq_close front b small, extract_close _ (by omega) (by omega), if_pos inside,
      Int.toNat_natCast, place, List.drop_left, read]
    rfl
  · intro data long marked
    obtain ⟨before, length, low, high, rfl⟩ := exists_close long marked
    have opened := extract_close before low high
    refine ⟨?_, before, length, low, high, rfl, ?_⟩
    · rw [opened]
      split
      · cases ModuleFile.decode (before.drop (before.length - length.toNat)) <;>
          simp [Except.map, Except.mapError]
      · simp
    · have room : ((close before length).length : Int) - 16 = before.length := by
        rw [length_close]
        omega
      rw [opened, room]

/-- A runner that is a bundle itself; and a trailer with the length minus one. -/
theorem open_make_of_bundle :
    (⟨#[2, 4, 20], #[#[19]]⟩ : Bytecode).Storable ∧
      extract (make (make [7] ⟨#[], #[]⟩) ⟨#[2, 4, 20], #[#[19]]⟩) =
        .ok (some ⟨#[2, 4, 20], #[#[19]]⟩) ∧
      runner (make (make [7] ⟨#[], #[]⟩) ⟨#[2, 4, 20], #[#[19]]⟩) = .ok (make [7] ⟨#[], #[]⟩) ∧
      extract (List.replicate 8 255 ++ mark) ≠ .ok none := by
  have storable : (⟨#[2, 4, 20], #[#[19]]⟩ : Bytecode).Storable :=
    ⟨⟨by decide, by decide⟩, by decide⟩
  have small : (ModuleFile.encode ⟨#[2, 4, 20], #[#[19]]⟩).length < 2 ^ 63 := by
    rw [ModuleFile.encode_eq_signed, ModuleFile.length_signed]
    decide
  obtain ⟨found, stripped, -, closed⟩ := open_make (make [7] ⟨#[], #[]⟩) _ storable small
  exact ⟨storable, found, stripped, (closed (List.replicate 8 255 ++ mark) (by decide) rfl).1⟩

end Bundle

end TapeLang
