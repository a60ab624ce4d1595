import Keepstone.Lib.Bytes

/-!
# Fixed layouts

A record of fixed size is written field by field into an array, each to a range of its own, and read
back the same way. `copy_from_slice` panics when the range is not as long as the field; here the
range is part of the statement that it is.

Results:
* `readField_writeField`, `readField_writeField_of_disjoint`: a field is read as it was written,
  whatever is written outside of its range;
* `take_eq_of_readField_eq`: arrays with the same fields are the same as far as the fields go.
-/

namespace Keepstone.Lib

/-- `u64::to_be_bytes`. -/
def toBeBytes (n : UInt64) : Bytes 8 := bytesOf (beBytes 8 n.toNat) (length_beBytes ..)

/-- `u64::from_be_bytes`. -/
def fromBeBytes (bytes : Bytes 8) : UInt64 := UInt64.ofNat (beNat bytes.toList)

@[simp] theorem fromBeBytes_toBeBytes (n : UInt64) : fromBeBytes (toBeBytes n) = n := by
  rw [fromBeBytes, toBeBytes, toList_bytesOf, beNat_beBytes n.toNat_lt, UInt64.ofNat_toNat]

theorem fromBeBytes_injective : Function.Injective fromBeBytes := by
  intro a b h
  have hlt (bytes : Bytes 8) : beNat bytes.toList < 2 ^ 64 := by
    have hlt := beNat_lt bytes.toList
    rwa [bytes.toList_length] at hlt
  have hback (bytes : Bytes 8) : beBytes 8 (fromBeBytes bytes).toNat = bytes.toList := by
    have hbytes := beBytes_beNat bytes.toList
    rwa [bytes.toList_length, ← UInt64.toNat_ofNat_of_lt' (hlt bytes)] at hbytes
  refine List.Vector.toList_injective ?_
  rw [← hback a, ← hback b, h]

variable {m n : Nat}

/-- The range from `start` to `stop` lies in an array of length `m` and is `n` long. -/
structure IsRange (m n start stop : Nat) : Prop where
  /-- The length. -/
  add_eq : start + n = stop
  /-- The end. -/
  le : stop ≤ m

instance (m n start stop : Nat) : Decidable (IsRange m n start stop) :=
  decidable_of_iff (start + n = stop ∧ stop ≤ m) ⟨fun h => ⟨h.1, h.2⟩, fun h => ⟨h.add_eq, h.le⟩⟩

/-- `copy_from_slice` of `field` into `out[start..stop]`. -/
def writeField (start stop : Nat) (field : Bytes n) (out : Bytes m)
    (h : IsRange m n start stop := by decide) : Bytes m :=
  bytesOf (out.toList.take start ++ field.toList ++ out.toList.drop stop) (by
    have hstop := h.add_eq
    have hle := h.le
    simp only [List.length_append, List.length_take, List.length_drop, List.Vector.toList_length]
    omega)

/-- `copy_from_slice` of `bytes[start..stop]` into an array. -/
def readField (start stop : Nat) (bytes : Bytes m) (h : IsRange m n start stop := by decide) :
    Bytes n :=
  bytesOf ((bytes.toList.drop start).take n) (by
    have hstop := h.add_eq
    have hle := h.le
    rw [List.length_take, List.length_drop, bytes.toList_length]
    omega)

theorem getElem?_writeField {start stop : Nat} (h : IsRange m n start stop) (field : Bytes n)
    (out : Bytes m) (i : Nat) :
    (writeField start stop field out h).toList[i]? =
      if start ≤ i ∧ i < stop then field.toList[i - start]? else out.toList[i]? := by
  have hstop := h.add_eq
  have hle := h.le
  have hfield := field.toList_length
  have hstart : (out.toList.take start).length = start := by
    rw [List.length_take, out.toList_length]
    omega
  rw [writeField, toList_bytesOf, List.append_assoc]
  by_cases hbefore : i < start
  · rw [List.getElem?_append_left (by rwa [hstart]), List.getElem?_take_of_lt hbefore, if_neg]
    omega
  rw [List.getElem?_append_right (by rw [hstart]; omega), hstart]
  by_cases hin : i < stop
  · rw [List.getElem?_append_left (by omega), if_pos (by omega)]
  · rw [List.getElem?_append_right (by omega), List.getElem?_drop, hfield, if_neg (by omega)]
    congr 1
    omega

theorem getElem?_readField {start stop : Nat} (h : IsRange m n start stop) (bytes : Bytes m)
    (i : Nat) :
    (readField start stop bytes h).toList[i]? =
      if i < n then bytes.toList[start + i]? else none := by
  rw [readField, toList_bytesOf, List.getElem?_take, List.getElem?_drop]

/-- **A field is read as it was written.** -/
@[simp] theorem readField_writeField {start stop : Nat} (h h' : IsRange m n start stop)
    (field : Bytes n) (out : Bytes m) :
    readField start stop (writeField start stop field out h) h' = field := by
  refine List.Vector.toList_injective (List.ext_getElem? fun i => ?_)
  have hstop := h'.add_eq
  rw [getElem?_readField, getElem?_writeField]
  by_cases hi : i < n
  · rw [if_pos hi, if_pos (by omega), Nat.add_sub_cancel_left]
  · rw [if_neg hi, List.getElem?_eq_none]
    rw [field.toList_length]
    omega

/-- Writing outside of a range leaves the field there. -/
theorem readField_writeField_of_disjoint {k start stop start' stop' : Nat}
    (h : IsRange m n start stop) (h' : IsRange m k start' stop')
    (hdisjoint : stop' ≤ start ∨ stop ≤ start') (field : Bytes n) (out : Bytes m) :
    readField start' stop' (writeField start stop field out h) h' =
      readField start' stop' out h' := by
  refine List.Vector.toList_injective (List.ext_getElem? fun i => ?_)
  have hstop := h'.add_eq
  rw [getElem?_readField, getElem?_readField, getElem?_writeField]
  by_cases hi : i < k
  · rw [if_pos hi, if_pos hi, if_neg (by omega)]
  · rw [if_neg hi, if_neg hi]

/-- **Arrays with the same fields are the same**, as far as the fields go. -/
theorem take_eq_of_readField_eq {start stop : Nat} (h : IsRange m n start stop) {a b : Bytes m}
    (hbefore : a.toList.take start = b.toList.take start)
    (hfield : readField start stop a h = readField start stop b h) :
    a.toList.take stop = b.toList.take stop := by
  have hlist := congrArg List.Vector.toList hfield
  rw [readField, readField, toList_bytesOf, toList_bytesOf] at hlist
  rw [← h.add_eq, List.take_add, List.take_add, hbefore, hlist]

end Keepstone.Lib
