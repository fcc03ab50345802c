import Mathlib.Data.List.Basic
import Mathlib.Data.Nat.Bitwise
import Mathlib.Tactic.Common
import Mathlib.Tactic.Ring

/-!
# Reading what was written

An input is a file with a position; a reader gives a value and moves on. `Reads r bytes a`: where
`bytes` lie ahead, `r` takes them and gives `a`, whatever follows.

* `Reads.bind`, `Reads.many`: readers one after the other.
* `reads_varInt`: numbers of seven bits a byte, the lowest first.
* `reads_fixed`: numbers of a fixed length, the highest byte first.
-/

namespace QDesktopSearch

theorem toNat_ofNat {x : ℕ} (hx : x < 0x100) : (UInt8.ofNat x).toNat = x := UInt8.toNat_ofNat_of_lt' hx

/-- A file, with the position in it. -/
structure ByteInput where
  file : List UInt8
  pos : ℕ
  deriving DecidableEq, Inhabited

namespace ByteInput

/-- What lies ahead. -/
def rest (s : ByteInput) : List UInt8 := s.file.drop s.pos

def seek (s : ByteInput) (pos : ℕ) : ByteInput := { s with pos := pos }

/-- The next byte. Behind the end there is none: the position, which lies there, shows it. -/
def byte : StateM ByteInput UInt8 := fun s => (s.file.getD s.pos 0, s.seek (s.pos + 1))

variable {α β γ : Type} {r : StateM ByteInput α} {bytes bytes' l : List UInt8} {a : α} {b : β} {s : ByteInput}

/-- **The reader takes the bytes and gives the value.** -/
def Reads (r : StateM ByteInput α) (bytes : List UInt8) (a : α) : Prop :=
  ∀ s l, s.rest = bytes ++ l → r s = (a, s.seek (s.pos + bytes.length))

@[simp] theorem seek_pos {n : ℕ} : (s.seek n).pos = n := rfl

@[simp] theorem seek_file {n : ℕ} : (s.seek n).file = s.file := rfl

@[simp] theorem seek_seek {n m : ℕ} : (s.seek n).seek m = s.seek m := rfl

theorem rest_seek_add (h : s.rest = bytes ++ l) : (s.seek (s.pos + bytes.length)).rest = l := by
  rw [rest, seek_file, seek_pos, ← List.drop_drop]
  rw [rest] at h
  rw [h, List.drop_left]

theorem Reads.pure : Reads (pure a) [] a := fun _ _ _ => rfl

/-- **One reader after the other.** -/
theorem Reads.bind {k : α → StateM ByteInput β} (h : Reads r bytes a) (h' : Reads (k a) bytes' b) :
    Reads (r >>= k) (bytes ++ bytes') b := by
  intro s l hs
  rw [List.append_assoc] at hs
  have hrun : (r >>= k) s = k (r s).1 (r s).2 := rfl
  rw [hrun, h s _ hs]
  dsimp only
  rw [h' _ l (rest_seek_add hs), seek_pos, seek_seek, List.length_append, Nat.add_assoc]

/-- A reader with nothing after it. -/
theorem Reads.bind_pure {k : α → StateM ByteInput β} (h : Reads r bytes a) (h' : k a = Pure.pure b) :
    Reads (r >>= k) bytes b := by
  rw [← List.append_nil bytes]
  refine h.bind ?_
  rw [h']
  exact .pure

theorem Reads.map {f : α → β} (h : Reads r bytes a) : Reads (f <$> r) bytes (f a) := by
  intro s l hs
  have hrun : (f <$> r) s = (f (r s).1, (r s).2) := rfl
  rw [hrun, h s l hs]

theorem reads_byte {x : UInt8} : Reads byte [x] x := by
  intro s l hs
  have hget : s.file.getD s.pos 0 = x := by
    have hhead := congrArg (·[0]?) hs
    simp only [rest, List.getElem?_drop, Nat.add_zero, List.singleton_append, List.getElem?_cons_zero] at hhead
    rw [List.getD_eq_getElem?_getD, hhead]
    rfl
  rw [byte, hget]
  rfl

/-- One byte, and what comes after it. -/
theorem Reads.cons {k : UInt8 → StateM ByteInput β} {x : UInt8} (h : Reads (k x) bytes b) : Reads (byte >>= k) (x :: bytes) b :=
  reads_byte.bind h

/-- As many values as there are. -/
def many (r : StateM ByteInput α) : ℕ → StateM ByteInput (List α)
  | 0 => pure []
  | n + 1 => do
    let a ← r
    let as ← many r n
    pure (a :: as)

theorem Reads.many {write : α → List UInt8} {as : List α} (h : ∀ a ∈ as, Reads r (write a) a) :
    Reads (many r as.length) (as.flatMap write) as := by
  induction as with
  | nil => exact .pure
  | cons a as ih =>
    have htail := ih fun a ha => h a (List.mem_cons_of_mem _ ha)
    have hcons : Reads (ByteInput.many r (as.length + 1)) (write a ++ (as.flatMap write ++ [])) (a :: as) :=
      (h a List.mem_cons_self).bind (htail.bind .pure)
    rwa [List.append_nil] at hcons

/-! ## Numbers of seven bits a byte -/

/-- The loop of `varInt`; the fuel is the number itself. -/
def varIntLoop : ℕ → ℕ → List UInt8
  | 0, i => [UInt8.ofNat i]
  | n + 1, i => if i < 0x80 then [UInt8.ofNat i] else UInt8.ofNat (i &&& 0x7F ||| 0x80) :: varIntLoop n (i >>> 7)

def varInt (i : ℕ) : List UInt8 := varIntLoop i i

/-- The loop of `readVarInt`, with the bytes that are left as fuel. -/
def readVarIntLoop : ℕ → (i shift : ℕ) → StateM ByteInput ℕ
  | 0, i, _ => pure i
  | n + 1, i, shift => do
    let b ← byte
    let i := i ||| (b.toNat &&& 0x7F) <<< shift
    if b.toNat &&& 0x80 ≠ 0 then readVarIntLoop n i (shift + 7) else pure i

def readVarInt : StateM ByteInput ℕ := fun s => readVarIntLoop (s.rest.length + 1) 0 0 s

theorem varIntLoop_ne_nil {n i : ℕ} : varIntLoop n i ≠ [] := by
  cases n with
  | zero => simp [varIntLoop]
  | succ n =>
    unfold varIntLoop
    split <;> simp

theorem varInt_ne_nil {i : ℕ} : varInt i ≠ [] := varIntLoop_ne_nil

theorem and_low {x : ℕ} : x &&& 0x7F = x % 0x80 := Nat.and_two_pow_sub_one_eq_mod x 7

theorem or_high {x : ℕ} : x % 0x80 ||| 0x80 = x % 0x80 + 0x80 := by
  have hor := Nat.shiftLeft_add_eq_or_of_lt (b := x % 0x80) (i := 7) (Nat.mod_lt _ (by decide)) 1
  rw [Nat.or_comm, Nat.add_comm]
  exact hor.symm

theorem or_shift {i y shift : ℕ} (hi : i < 2 ^ shift) : i ||| y <<< shift = i + y * 2 ^ shift := by
  rw [Nat.or_comm, ← Nat.shiftLeft_add_eq_or_of_lt hi, Nat.shiftLeft_eq, Nat.add_comm]

theorem high_iff {x : ℕ} (hx : x < 0x100) : x &&& 0x80 = 0 ↔ x < 0x80 := by
  have hand := Nat.and_two_pow x 7
  rw [Nat.testBit_eq_decide_div_mod_eq] at hand
  rw [show (0x80 : ℕ) = 2 ^ 7 from rfl, hand]
  simp
  omega

theorem readVarIntLoop_spec {n m i x shift : ℕ} (hi : i < 2 ^ shift) (hn : x ≤ n) (hm : (varIntLoop n x).length ≤ m)
    (hs : s.rest = varIntLoop n x ++ l) :
    readVarIntLoop m i shift s = (i + x * 2 ^ shift, s.seek (s.pos + (varIntLoop n x).length)) := by
  induction n generalizing m i x shift s with
  | zero =>
    obtain rfl : x = 0 := by omega
    obtain _ | m := m
    · simp [varIntLoop] at hm
    have hbyte : byte s = _ := reads_byte s l hs
    unfold readVarIntLoop
    simp only [bind, StateT.bind, hbyte]
    rw [if_neg (by decide), show (UInt8.ofNat 0).toNat &&& 0x7F = 0 from rfl, Nat.zero_shiftLeft, Nat.or_zero, Nat.zero_mul,
      Nat.add_zero]
    rfl
  | succ n ih =>
    unfold varIntLoop at hs hm ⊢
    by_cases hlt : x < 0x80
    · rw [if_pos hlt] at hs hm ⊢
      obtain _ | m := m
      · simp at hm
      have hx : (UInt8.ofNat x).toNat = x := toNat_ofNat (by omega)
      have hbyte : byte s = _ := reads_byte s l hs
      unfold readVarIntLoop
      simp only [bind, StateT.bind, hbyte, hx]
      rw [if_neg (not_not.2 ((high_iff (by omega)).2 hlt)), and_low, Nat.mod_eq_of_lt hlt, or_shift hi]
      rfl
    · rw [if_neg hlt] at hs hm ⊢
      rw [and_low, or_high, Nat.shiftRight_eq_div_pow] at hs hm ⊢
      obtain _ | m := m
      · simp at hm
      have hx : (UInt8.ofNat (x % 0x80 + 0x80)).toNat = x % 0x80 + 0x80 :=
        toNat_ofNat (by omega)
      have hbyte : byte s = _ := reads_byte s (varIntLoop n (x / 2 ^ 7) ++ l) hs
      have hrest : (s.seek (s.pos + 1)).rest = varIntLoop n (x / 2 ^ 7) ++ l := by
        simpa only [List.length_singleton] using rest_seek_add (l := varIntLoop n (x / 2 ^ 7) ++ l)
          (show s.rest = [_] ++ _ from hs)
      rw [List.length_singleton] at hbyte
      have hlow : (x % 0x80 + 0x80) % 0x80 = x % 0x80 := by omega
      have hnext : i + x % 0x80 * 2 ^ shift < 2 ^ (shift + 7) := by
        have hmod : x % 0x80 + 1 ≤ 0x80 := Nat.mod_lt x (by decide)
        calc i + x % 0x80 * 2 ^ shift < (x % 0x80 + 1) * 2 ^ shift := by rw [Nat.add_mul]; omega
          _ ≤ 2 ^ 7 * 2 ^ shift := Nat.mul_le_mul_right _ hmod
          _ = 2 ^ (shift + 7) := by rw [pow_add, Nat.mul_comm]
      unfold readVarIntLoop
      simp only [bind, StateT.bind, hbyte, hx]
      rw [if_pos (mt (high_iff (by omega)).1 (by omega)), and_low, hlow, or_shift hi,
        ih hnext (by omega) (by rw [List.length_cons] at hm; omega) hrest]
      have hvalue : i + x % 0x80 * 2 ^ shift + x / 2 ^ 7 * 2 ^ (shift + 7) = i + x * 2 ^ shift := by
        have hdiv : x / 2 ^ 7 = x / 0x80 := rfl
        conv_rhs => rw [← Nat.mod_add_div x 0x80]
        rw [pow_add, hdiv]
        ring
      rw [hvalue, seek_pos, seek_seek, List.length_cons, Nat.add_assoc, Nat.add_comm 1]

/-- **A number is read as it was written.** -/
theorem reads_varInt {i : ℕ} : Reads readVarInt (varInt i) i := by
  intro s l hs
  have hlength : (varIntLoop i i).length ≤ s.rest.length + 1 := by
    rw [hs, List.length_append, varInt]
    omega
  unfold readVarInt
  rw [readVarIntLoop_spec (by simp) (Nat.le_refl i) hlength hs]
  simp [varInt]

/-! ## Numbers of a fixed length -/

/-- The lowest `n` bytes, the highest of them first. -/
def fixed : ℕ → ℕ → List UInt8
  | 0, _ => []
  | n + 1, i => UInt8.ofNat (i / 0x100 ^ n % 0x100) :: fixed n i

def readFixedLoop : ℕ → ℕ → StateM ByteInput ℕ
  | 0, i => pure i
  | n + 1, i => do
    let b ← byte
    readFixedLoop n (i * 0x100 + b.toNat)

def readFixed (n : ℕ) : StateM ByteInput ℕ := readFixedLoop n 0

@[simp] theorem fixed_length {n i : ℕ} : (fixed n i).length = n := by
  induction n with
  | zero => rfl
  | succ n ih => rw [fixed, List.length_cons, ih]

theorem readFixedLoop_reads {n i j : ℕ} : Reads (readFixedLoop n j) (fixed n i) (j * 0x100 ^ n + i % 0x100 ^ n) := by
  induction n generalizing j with
  | zero =>
    rw [pow_zero, Nat.mul_one, Nat.mod_one, Nat.add_zero]
    exact .pure
  | succ n ih =>
    have hbyte : (UInt8.ofNat (i / 0x100 ^ n % 0x100)).toNat = i / 0x100 ^ n % 0x100 :=
      toNat_ofNat (Nat.mod_lt _ (by decide))
    have hreads := (reads_byte (x := UInt8.ofNat (i / 0x100 ^ n % 0x100))).bind
      (k := fun b => readFixedLoop n (j * 0x100 + b.toNat)) ih
    have hvalue : (j * 0x100 + i / 0x100 ^ n % 0x100) * 0x100 ^ n + i % 0x100 ^ n =
        j * 0x100 ^ (n + 1) + i % 0x100 ^ (n + 1) := by
      rw [pow_succ, Nat.mod_mul]
      ring
    rw [hbyte, hvalue] at hreads
    exact hreads

theorem reads_fixed {n i : ℕ} (hi : i < 0x100 ^ n) : Reads (readFixed n) (fixed n i) i := by
  have hreads := readFixedLoop_reads (n := n) (i := i) (j := 0)
  rwa [Nat.zero_mul, Nat.zero_add, Nat.mod_eq_of_lt hi] at hreads

end ByteInput

end QDesktopSearch
