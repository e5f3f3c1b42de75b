import Xv6.Vm.Image
import Xv6.Vm.User

/-!
# Bytes of user memory

`byteAt` is a byte as the process sees it.  `Overlaid` says that bytes have been written to
consecutive addresses, across any pages, and that no other byte has changed.
-/

namespace Xv6.Vm

open Exec

theorem toNat_append_byte {n : Nat} (high : BitVec n) (low : UInt8) :
    (high ++ low.toBitVec).toNat = high.toNat * 256 + low.toNat := by
  rw [BitVec.toNat_append, ← Nat.shiftLeft_add_eq_or_of_lt low.toBitVec.isLt, Nat.shiftLeft_eq]
  rfl

theorem Page.byte_ofBytes (byte : Nat → UInt8) (k : Nat) : (Page.ofBytes byte).byte k = byte k := by
  have place : k = 4 * (k / 4) + k % 4 := by omega
  have bound : k % 4 < 4 := by omega
  unfold Page.byte Page.ofBytes
  generalize k / 4 = i at place
  generalize k % 4 = j at place bound
  subst place
  apply UInt8.toNat_inj.mp
  rw [UInt8.toNat_ofBitVec, BitVec.toNat_setWidth, BitVec.toNat_ushiftRight, toNat_append_byte,
    toNat_append_byte, toNat_append_byte, Nat.shiftRight_eq_div_pow]
  have small := fun k => (byte k).toNat_lt
  have := small (4 * i)
  have := small (4 * i + 1)
  have := small (4 * i + 2)
  have := small (4 * i + 3)
  interval_cases j <;> simp <;> omega

def byteAt (page : Nat → Page) (d a : Nat) : Option UInt8 :=
  (content page d (a / 4096)).map fun mem => mem.byte (a % 4096)

theorem byteAt_grown {page page' : Nat → Page} {d g k a : Nat} (few : k ≤ KERNPAGE)
    (grown : ∀ n, n < KERNPAGE → content page' d n =
      if g ≤ n ∧ n < k then some zeroPage else content page d n) (inside : a < k * 4096) :
    byteAt page' d a = if a < g * 4096 then byteAt page d a else some 0 := by
  unfold byteAt
  rw [grown (a / 4096) (by omega)]
  by_cases low : a < g * 4096
  · rw [if_neg (by omega), if_pos low]
  · rw [if_pos (by omega), if_neg low, Option.map_some, Page.byte, zeroPage]
    simp

def At (page : Nat → Page) (d va : Nat) (bytes : List UInt8) : Prop :=
  ∀ i < bytes.length, byteAt page d (va + i) = bytes[i]?

/-- `bytes` has been written at `va` and nothing else has changed. -/
def Overlaid (page page' : Nat → Page) (d va : Nat) (bytes : List UInt8) : Prop :=
  ∀ a, a / 4096 < KERNPAGE → byteAt page' d a =
    if va ≤ a ∧ a < va + bytes.length then bytes[a - va]? else byteAt page d a

section Overlaid

variable {page page' page'' : Nat → Page} {d va : Nat} {bytes more : List UInt8}

theorem overlaid_nil : Overlaid page page d va [] := by
  intro a _
  rw [if_neg (by rw [List.length_nil]; omega)]

theorem Overlaid.congr {va' : Nat} (overlaid : Overlaid page page' d va bytes)
    (same : 0 < bytes.length → va = va') : Overlaid page page' d va' bytes := by
  intro a low
  rw [overlaid a low]
  by_cases empty : bytes.length = 0
  · rw [if_neg (by omega), if_neg (by omega)]
  · rw [same (by omega)]

theorem Overlaid.append (first : Overlaid page page' d va bytes)
    (second : Overlaid page' page'' d (va + bytes.length) more) :
    Overlaid page page'' d va (bytes ++ more) := by
  intro a low
  rw [second a low, first a low, List.length_append]
  by_cases later : va + bytes.length ≤ a ∧ a < va + bytes.length + more.length
  · rw [if_pos later, if_pos (by omega), List.getElem?_append_right (by omega), Nat.sub_sub]
  · rw [if_neg later]
    by_cases earlier : va ≤ a ∧ a < va + bytes.length
    · rw [if_pos earlier, if_pos (by omega), List.getElem?_append_left (by omega)]
    · rw [if_neg earlier, if_neg (by omega)]

theorem Overlaid.at (overlaid : Overlaid page page' d va bytes)
    (low : va + bytes.length ≤ KERNBASE) : At page' d va bytes := by
  unfold KERNBASE at low
  intro i inside
  rw [overlaid _ (by unfold KERNPAGE; omega), if_pos (by omega), Nat.add_sub_cancel_left]

theorem At.keep (holds : At page d va bytes)
    (same : ∀ a, va ≤ a → a < va + bytes.length → byteAt page' d a = byteAt page d a) :
    At page' d va bytes := fun i inside =>
  (same _ (by omega) (by omega)).trans (holds i inside)

theorem At.part (holds : At page d va bytes) (off count : Nat) :
    At page d (va + off) ((bytes.drop off).take count) := by
  intro i inside
  rw [List.length_take, List.length_drop] at inside
  rw [Nat.add_assoc, holds _ (by omega), List.getElem?_take_of_lt (by omega), List.getElem?_drop]

end Overlaid

section Store

variable {layout : Layout} {own : Nat → Prop} {base : Nat → Page} {guard : Option Nat} {k : Nat}
  {m : Memory} {d p off : Nat} {free : List Nat} {bytes : List UInt8}

theorem Image.overlaid_store (image : Image layout own base guard k m d free) {n : Nat} {w : Word}
    (low : n < KERNPAGE) (found : lookup m.page d n = some w) (isPresent : present w = true)
    (fits : off + bytes.length ≤ 4096) :
    Overlaid m.page (Function.update m.page (frame w) ((m.page (frame w)).store off bytes)) d
      (n * 4096 + off) bytes := by
  have plain := plain_user image.toSpace low found isPresent
  have owned : Owns m.page d (.user n) (frame w) := ⟨low, w, found, isPresent, rfl⟩
  obtain ⟨-, -, entries⟩ := image.toSpace.frame
    { m with page := Function.update m.page (frame w) ((m.page (frame w)).store off bytes) } rfl
    (image.mine owned) plain.used plain.ne_dir (fun i small found => plain.ne_table small found rfl)
    (fun q other => Function.update_of_ne other ..)
  have user : ∀ {n}, n < KERNPAGE → n < 2 ^ 20 := by
    unfold KERNPAGE
    omega
  intro a below
  unfold byteAt
  by_cases here : a / 4096 = n
  · rw [here, content_of_lookup found isPresent, content_of_lookup
      ((entries n (user low)).trans found) isPresent, Option.map_some, Option.map_some]
    dsimp only
    rw [Function.update_self, Page.store, Page.byte_ofBytes]
    have outer : n * 4096 + off ≤ a ∧ a < n * 4096 + off + bytes.length ↔
        off ≤ a % 4096 ∧ a % 4096 < off + bytes.length := by omega
    simp only [outer]
    split
    · rw [List.getD_eq_getElem _ _ (by omega), List.getElem?_eq_getElem (by omega)]
      congr 2
      omega
    · rfl
  · rw [if_neg (by omega)]
    congr 1
    refine content_congr (entries _ (user below)) fun w' found' isPresent' => ?_
    refine Function.update_of_ne ?_ ..
    intro same
    have other : Owns m.page d (.user (a / 4096)) (frame w) := ⟨below, w', found', isPresent', same⟩
    exact here (Role.user.inj (image.pool.apart other owned))

theorem Image.storeBytes_spec (image : Image layout own base guard k m d free)
    (isGrown : p ∈ m.grown) :
    (storeBytes layout p off bytes).Ensures m
      (fun _ m' => Image layout own base guard k m' d free ∧ m'.grown = m.grown ∧ m'.lost = m.lost ∧
        ∀ {n w}, n < KERNPAGE → lookup m.page d n = some w → present w = true → frame w = p →
          off + bytes.length ≤ 4096 → Overlaid m.page m'.page d (n * 4096 + off) bytes)
      (fun _ => False) := by
  obtain ⟨lower, upper⟩ := image.range p (image.apart isGrown).1
  have below := layout.data_below
  unfold storeBytes
  split
  next empty =>
    subst empty
    exact ⟨image, rfl, rfl, fun _ _ _ _ _ => overlaid_nil⟩
  · rw [if_neg (by omega), ensures_modify]
    simp only [isGrown, if_true]
    refine ⟨image.store isGrown _, trivial, trivial, ?_⟩
    rintro n w low found isPresent rfl fits
    exact image.overlaid_store low found isPresent fits

end Store

end Xv6.Vm
