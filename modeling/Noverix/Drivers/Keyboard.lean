/-
  The keyboard driver's key buffer (drivers/keyboard.c): the interrupt handler that
  decodes scan codes and stores characters, and `get_char`, which takes them out.

  Both touch the buffer under `kb_lock` only, so a run is a sequence of whole calls;
  a handler that does not get the lock returns with the scan code read and lost.
-/

import Noverix.Lib.Runs

namespace Noverix.Drivers

open Lib

/-! ## The model -/

def scancodeAscii : List UInt8 :=
  [0, 0, 49, 50, 51, 52, 53, 54, 55, 56, 57, 48, 45, 61, 8, 0, 113, 119, 101, 114, 116, 121, 117,
  105, 111, 112, 91, 93, 10, 0, 97, 115, 100, 102, 103, 104, 106, 107, 108, 59, 39, 96, 0, 92, 122,
  120, 99, 118, 98, 110, 109, 44, 46, 47, 0, 42, 0, 32]

def scancodeAsciiShift : List UInt8 :=
  [0, 0, 33, 64, 35, 36, 37, 94, 38, 42, 40, 41, 95, 43, 8, 0, 81, 87, 69, 82, 84, 89, 85, 73, 79,
  80, 123, 125, 10, 0, 65, 83, 68, 70, 71, 72, 74, 75, 76, 58, 34, 126, 0, 124, 90, 88, 67, 86, 66,
  78, 77, 60, 62, 63, 0, 42, 0, 32]

/-- `key_buffer`, `buffer_head` and `buffer_tail`. -/
structure KeyBuffer where
  cells : Nat → UInt8
  head : Nat
  tail : Nat
  head_lt : head < 256
  tail_lt : tail < 256

/-- The static variables of the driver. -/
structure Keyboard where
  shiftPressed : Bool
  capsOn : Bool
  extended : Bool
  buffer : KeyBuffer

/-- `if (c) { int next = ...; if (next != buffer_tail) ... }` -/
def KeyBuffer.put (b : KeyBuffer) (c : UInt8) : KeyBuffer :=
  if c = 0 ∨ (b.head + 1) % 256 = b.tail then b
  else
    { b with
      cells := update b.cells b.head c
      head := (b.head + 1) % 256
      head_lt := Nat.mod_lt _ (by decide) }

/-- The arrow keys, after an extended prefix. -/
def arrowKey (code : UInt8) : UInt8 :=
  if code = 0x48 then 1 else if code = 0x50 then 2 else if code = 0x4B then 3
  else if code = 0x4D then 4 else 0

/-- The keys that are down after a scan code, and the character it stands for, or 0. -/
def Keyboard.decode (k : Keyboard) (code : UInt8) : Keyboard × UInt8 :=
  if code = 0xE0 then ({ k with extended := true }, 0)
  else if k.extended then
    ({ k with extended := false }, if code &&& 0x80 = 0 then arrowKey code else 0)
  else if code = 0x2A ∨ code = 0x36 then ({ k with shiftPressed := true }, 0)
  else if code = 0xAA ∨ code = 0xB6 then ({ k with shiftPressed := false }, 0)
  else if code = 0x3A then ({ k with capsOn := !k.capsOn }, 0)
  else if code &&& 0x80 = 0 ∧ code < 58 then
    (k, (if k.shiftPressed || k.capsOn then scancodeAsciiShift else scancodeAscii).getD
      code.toNat 0)
  else (k, 0)

/-- `keyboard_handler`, for the bytes on the two ports; `held` if the lock is. -/
def keyboardHandler (k : Keyboard) (status code : UInt8) (held : Bool) : Keyboard :=
  if status &&& 1 = 0 ∨ held then k
  else { (k.decode code).1 with buffer := k.buffer.put (k.decode code).2 }

def getChar (b : KeyBuffer) : UInt8 × KeyBuffer :=
  if b.head = b.tail then (0, b)
  else (b.cells b.tail, { b with tail := (b.tail + 1) % 256, tail_lt := Nat.mod_lt _ (by decide) })

/-- `init_keyboard`; what is in `key_buffer` does not matter. -/
def initKeyboard (cells : Nat → UInt8) : Keyboard :=
  ⟨false, false, false, cells, 0, 0, by decide, by decide⟩

/-! ## Runs -/

inductive KeyOp where
  | irq (status code : UInt8) (held : Bool)
  | getChar

/-- The driver, with the characters stored in the buffer so far and those that `get_char` has
    returned; its 0 is no character. -/
structure KeyRun where
  kb : Keyboard
  accepted : List UInt8
  returned : List UInt8

def KeyRun.step : KeyOp → KeyRun → KeyRun
  | .irq status code held, r =>
    let kb := keyboardHandler r.kb status code held
    ⟨kb, if kb.buffer.head = r.kb.buffer.head then r.accepted
      else r.accepted ++ [kb.buffer.cells r.kb.buffer.head], r.returned⟩
  | .getChar, r =>
    let (c, b) := getChar r.kb.buffer
    ⟨{ r.kb with buffer := b }, r.accepted,
      if c = 0 then r.returned else r.returned ++ [c]⟩

/-- The characters in the buffer, in the order in which `get_char` takes them. -/
def KeyBuffer.waiting (b : KeyBuffer) : List UInt8 :=
  (List.range ((b.head + 256 - b.tail) % 256)).map fun i => b.cells ((b.tail + i) % 256)

/-- The character a scan code stands for when it arrives, or 0. -/
def Keyboard.decoded (k : Keyboard) (status code : UInt8) : UInt8 :=
  if status &&& 1 = 0 then 0 else (k.decode code).2

/-! ## One call -/

variable {b : KeyBuffer} {c : UInt8}

theorem length_waiting (b : KeyBuffer) : b.waiting.length = (b.head + 256 - b.tail) % 256 := by
  simp [KeyBuffer.waiting]

/-- The buffer is full with 255 characters. -/
theorem full_iff (b : KeyBuffer) : (b.head + 1) % 256 = b.tail ↔ b.waiting.length = 255 := by
  have := b.head_lt
  have := b.tail_lt
  rw [length_waiting]
  omega

theorem waiting_put (hc : c ≠ 0) (hfree : b.waiting.length ≠ 255) :
    (b.put c).waiting = b.waiting ++ [c] ∧ (b.put c).head ≠ b.head ∧
      (b.put c).cells b.head = c := by
  have hfull := mt (full_iff b).mp hfree
  have hhead := b.head_lt
  have htail := b.tail_lt
  rw [KeyBuffer.put, if_neg (not_or.mpr ⟨hc, hfull⟩)]
  refine ⟨?_, by simp only; omega, update_self ..⟩
  have hsize : ((b.head + 1) % 256 + 256 - b.tail) % 256 = (b.head + 256 - b.tail) % 256 + 1 := by
    omega
  simp only [KeyBuffer.waiting, hsize, range_succ, map_append, map_cons,
    map_nil]
  congr 1
  · refine map_congr_left fun i hi => update_of_ne ?_ ..
    have := mem_range.mp hi
    omega
  · rw [show (b.tail + (b.head + 256 - b.tail) % 256) % 256 = b.head by omega,
      update_self]

/-- Whatever the handler is given, it does to the buffer what `put` does. -/
theorem buffer_keyboardHandler (k : Keyboard) (status code : UInt8) (held : Bool) :
    (keyboardHandler k status code held).buffer =
      k.buffer.put (if held then 0 else k.decoded status code) := by
  have hnone : k.buffer.put 0 = k.buffer := if_pos (Or.inl rfl)
  unfold keyboardHandler Keyboard.decoded
  by_cases hheld : held = true
  · rw [if_pos (Or.inr hheld), if_pos hheld, hnone]
  by_cases hready : status &&& 1 = 0
  · rw [if_pos (Or.inl hready), if_neg hheld, if_pos hready, hnone]
  · rw [if_neg (not_or.mpr ⟨hready, hheld⟩), if_neg hheld, if_neg hready]

theorem waiting_getChar (hne : b.head ≠ b.tail) :
    b.waiting = (getChar b).1 :: (getChar b).2.waiting := by
  have hhead := b.head_lt
  have htail := b.tail_lt
  have hsize : (b.head + 256 - b.tail) % 256 = (b.head + 256 - (b.tail + 1) % 256) % 256 + 1 := by
    omega
  rw [getChar, if_neg hne]
  simp only [KeyBuffer.waiting, hsize, range_succ_eq_map, map_cons, map_map,
    Nat.add_zero, mod_eq_of_lt htail]
  congr 1
  refine map_congr_left fun i _ => congrArg b.cells ?_
  show (b.tail + (i + 1)) % 256 = _
  omega

theorem waiting_eq_nil_iff (b : KeyBuffer) : b.waiting = [] ↔ b.head = b.tail := by
  have := b.head_lt
  have := b.tail_lt
  rw [← List.length_eq_zero_iff, length_waiting]
  omega

/-! ## Whole runs -/

/-- The characters stored are those taken, followed by those that wait, and none is 0. -/
structure KeyRun.Fifo (r : KeyRun) : Prop where
  order : r.accepted = r.returned ++ r.kb.buffer.waiting
  ne_zero : ∀ c ∈ r.kb.buffer.waiting, c ≠ 0

theorem step_irq (r : KeyRun) (status code : UInt8) (held : Bool)
    (hc : c = if held then 0 else r.kb.decoded status code) :
    let r' := r.step (.irq status code held)
    r'.returned = r.returned ∧
      ((c = 0 ∨ r.kb.buffer.waiting.length = 255) ∧ r'.accepted = r.accepted ∧
          r'.kb.buffer = r.kb.buffer ∨
        (c ≠ 0 ∧ r.kb.buffer.waiting.length ≠ 255) ∧ r'.accepted = r.accepted ++ [c] ∧
          r'.kb.buffer.waiting = r.kb.buffer.waiting ++ [c]) := by
  refine ⟨rfl, ?_⟩
  simp only [KeyRun.step, buffer_keyboardHandler, ← hc]
  by_cases hdrop : c = 0 ∨ r.kb.buffer.waiting.length = 255
  · have hput : r.kb.buffer.put c = r.kb.buffer := if_pos (hdrop.imp_right (full_iff _).mpr)
    rw [hput]
    exact .inl ⟨hdrop, if_pos rfl, rfl⟩
  · have hstore := not_or.mp hdrop
    obtain ⟨hwait, hhead, hcell⟩ := waiting_put hstore.1 hstore.2
    rw [if_neg hhead, hcell]
    exact .inr ⟨hstore, rfl, hwait⟩

theorem KeyRun.Fifo.step {r : KeyRun} (hr : r.Fifo) (op : KeyOp) : (r.step op).Fifo := by
  cases op with
  | irq status code held =>
    obtain ⟨hret, ⟨-, hacc, hbuf⟩ | ⟨⟨hne, -⟩, hacc, hwait⟩⟩ := step_irq r status code held rfl
    · exact ⟨by rw [hacc, hret, hbuf, hr.order], hbuf ▸ hr.ne_zero⟩
    · refine ⟨by rw [hacc, hret, hwait, hr.order, append_assoc], fun c hc => ?_⟩
      rw [hwait] at hc
      rcases mem_append.mp hc with hc | hc
      · exact hr.ne_zero c hc
      · exact mem_singleton.mp hc ▸ hne
  | getChar =>
    by_cases hempty : r.kb.buffer.head = r.kb.buffer.tail
    · simp only [KeyRun.step, Drivers.getChar, if_pos hempty]
      exact ⟨by simpa using hr.order, hr.ne_zero⟩
    have hwait := waiting_getChar hempty
    have hchar : (Drivers.getChar r.kb.buffer).1 ≠ 0 :=
      hr.ne_zero _ (hwait ▸ mem_cons_self)
    constructor
    · simp only [KeyRun.step, if_neg hchar]
      rw [hr.order, hwait, append_assoc, singleton_append]
    · intro c hc
      exact hr.ne_zero c (hwait ▸ mem_cons_of_mem _ hc)

/-- The key buffer is a bounded queue: along every run the characters returned are those stored, in
    order, up to the ones that wait; a character is dropped only at 255 of them or for the lock;
    and `get_char` gives 0 only if none waits. -/
theorem keyboard_fifo (cells : Nat → UInt8) (r : KeyRun)
    (hr : Reach KeyRun.step (fun _ _ => True) ⟨initKeyboard cells, [], []⟩ r) :
    r.accepted = r.returned ++ r.kb.buffer.waiting ∧
      (∀ status code held, (r.step (.irq status code held)).accepted =
        if r.kb.decoded status code = 0 ∨ held ∨ r.kb.buffer.waiting.length = 255 then r.accepted
        else r.accepted ++ [r.kb.decoded status code]) ∧
      ((getChar r.kb.buffer).1 = 0 ↔ r.kb.buffer.waiting = []) := by
  have hnone : (initKeyboard cells).buffer.waiting = [] := (waiting_eq_nil_iff _).mpr rfl
  have hfifo : r.Fifo := hr.invariant KeyRun.Fifo ⟨hnone.symm, by simp [hnone]⟩
    fun op s hs _ => hs.step op
  refine ⟨hfifo.order, fun status code held => ?_, fun hzero => ?_, fun hempty => ?_⟩
  · obtain ⟨-, hcase⟩ := step_irq r status code held rfl
    cases held with
    | true =>
      rcases hcase with ⟨-, hacc, -⟩ | ⟨hstore, -⟩
      · rw [hacc, if_pos (.inr (Or.inl rfl))]
      · exact absurd rfl hstore.1
    | false =>
      simp only [Bool.false_eq_true, if_false, false_or] at hcase ⊢
      rcases hcase with ⟨hdrop, hacc, -⟩ | ⟨hstore, hacc, -⟩
      · rw [if_pos hdrop, hacc]
      · rw [if_neg (not_or.mpr hstore), hacc]
  · by_contra hsome
    have hwait := waiting_getChar (mt (waiting_eq_nil_iff _).mpr hsome)
    exact hfifo.ne_zero _ (hwait ▸ mem_cons_self) hzero
  · rw [getChar, if_pos ((waiting_eq_nil_iff _).mp hempty)]

/-- The A key, the B key, and `get_char`. -/
theorem keyboard_fifo_ab : ∃ r : KeyRun,
    Reach KeyRun.step (fun _ _ => True) ⟨initKeyboard fun _ => 0, [], []⟩ r ∧
      r.returned = [97] ∧ r.kb.buffer.waiting = [98] ∧
      r.accepted = r.returned ++ r.kb.buffer.waiting := by
  have hr : Reach KeyRun.step (fun _ _ => True) ⟨initKeyboard fun _ => 0, [], []⟩
      (KeyRun.step .getChar (KeyRun.step (.irq 1 0x30 false) (KeyRun.step (.irq 1 0x1E false)
        ⟨initKeyboard fun _ => 0, [], []⟩))) :=
    .next _ (.next _ (.next _ .start trivial) trivial) trivial
  exact ⟨_, hr, by decide, by decide, (keyboard_fifo _ _ hr).1⟩

end Noverix.Drivers
