/-
  The line editor of the shell and its history (kernel/kernel.c).

  The line is in a buffer, with its length and the cursor kept beside it; a
  terminator is only where the source stores one.  A line of the history and the
  saved draft are only ever copied and compared as strings, so they are the bytes
  before the terminator.  What is drawn on the screen is left out.
-/

import Noverix.Lib.Loops
import Noverix.Lib.Word
import Mathlib.Data.List.GetD
import Mathlib.Data.List.Infix
import Mathlib.Data.List.TakeWhile

namespace Noverix.Shell

open Lib

/-! ## The model -/

/-- `for (i = lo + n; i > lo; i--) m[i] = m[i - 1];` -/
def shiftUp (m : Nat → α) (lo : Nat) : Nat → Nat → α
  | 0 => m
  | n + 1 => shiftUp (update m (lo + n + 1) (m (lo + n))) lo n

/-- `for (i = lo; i < lo + n; i++) m[i] = m[i + 1];` -/
def shiftDown (m : Nat → α) (lo : Nat) : Nat → Nat → α
  | 0 => m
  | n + 1 => shiftDown (update m lo (m (lo + 1))) (lo + 1) n

abbrev lineBuf : Nat := 256

abbrev historySize : Nat := 16

/-- `history` and `history_count`. -/
structure History where
  lines : Nat → List UInt8
  count : Nat

/-- `history_add`. -/
def History.add (h : History) (buf : List UInt8) : History :=
  if buf = [] then h
  else if 0 < h.count ∧ buf = h.lines (h.count - 1) then h
  else if historySize ≤ h.count then
    -- the last slot is stored, but `history_count` does not include it
    ⟨update (shiftDown h.lines 0 (historySize - 1)) (historySize - 1) buf, historySize - 1⟩
  else ⟨update (shiftUp h.lines 0 h.count) 0 buf, h.count + 1⟩

/-- The string in a buffer; one without a terminator is cut where the buffer ends. -/
def strOf (buf : Mem) : List UInt8 := ((List.range lineBuf).map buf).takeWhile (· != 0)

/-- `lib_strcpy(buf, line)`. -/
def copyLine (line : List UInt8) (buf : Mem) : Mem := fun k =>
  if k = line.length then 0 else line.getD k (buf k)

/-- The variables of `readline`; `histPos` is `hist_pos + 1`. -/
structure Editor where
  buf : Mem
  len : Nat
  pos : Nat
  histPos : Nat
  saved : List UInt8

namespace Editor

/-- A line of the history, or the draft, takes the place of the line. -/
def recallLine (s : Editor) (line : List UInt8) : Editor :=
  { s with
    buf := copyLine line s.buf
    len := (strOf (copyLine line s.buf)).length
    pos := (strOf (copyLine line s.buf)).length }

/-- One round of the loop, for a key that is not newline.  `c == 3` is KEY_LEFT, so the branch
    for ^C is never taken. -/
def key (h : History) (max : Nat) (s : Editor) (c : UInt8) : Editor :=
  let s := { s with pos := min s.pos s.len }
  if c = 1 ∧ 0 < h.count then
    if s.histPos = 0 then { s with saved := strOf s.buf, histPos := 1 }.recallLine (h.lines 0)
    else if s.histPos < h.count then
      { s with histPos := s.histPos + 1 }.recallLine (h.lines s.histPos)
    else s
  else if c = 2 then
    if s.histPos = 0 then s
    else if s.histPos = 1 then { s with histPos := 0 }.recallLine s.saved
    else { s with histPos := s.histPos - 1 }.recallLine (h.lines (s.histPos - 2))
  else if c = 3 then { s with pos := s.pos - 1 }
  else if c = 4 then { s with pos := min (s.pos + 1) s.len }
  else if c = 8 then
    if 0 < s.pos then
      { s with
        buf := shiftDown s.buf (s.pos - 1) (s.len - s.pos)
        len := s.len - 1
        pos := s.pos - 1 }
    else s
  else if s.len < max - 2 then
    { s with
      buf := update (shiftUp s.buf s.pos (s.len - s.pos)) s.pos c
      len := s.len + 1
      pos := s.pos + 1 }
  else s

/-- The state after keys that are not newline; once the line is too long no key is read. -/
def typed (h : History) (max : Nat) (s : Editor) (keys : List UInt8) : Editor :=
  keys.foldl (fun s c => if s.len < max - 1 then s.key h max c else s) s

/-- The state in which `readline` begins. -/
def start (buf : Mem) (saved : List UInt8) : Editor := ⟨update buf 0 0, 0, 0, 0, saved⟩

end Editor

/-- `readline`, for the keys before newline: the buffer, and the history. -/
def readline (h : History) (max : Nat) (buf : Mem) (saved : List UInt8) (keys : List UInt8) :
    Mem × History :=
  let s := (Editor.start buf saved).typed h max keys
  let buf := update s.buf s.len 0
  (buf, if s.len < max - 1 then h.add (strOf buf) else h)

/-! ## The loops -/

theorem shiftUp_apply (m : Nat → α) (lo n k : Nat) :
    shiftUp m lo n k = if lo < k ∧ k ≤ lo + n then m (k - 1) else m k := by
  induction n generalizing m with
  | zero => rw [shiftUp, if_neg (by omega)]
  | succ n ih =>
    rw [shiftUp, ih]
    by_cases hin : lo < k ∧ k ≤ lo + n
    · rw [if_pos hin, if_pos (by omega), update_of_ne (by omega)]
    rw [if_neg hin]
    by_cases hlast : k = lo + n + 1
    · rw [hlast, update_self, if_pos (by omega)]
      rfl
    · rw [update_of_ne hlast, if_neg (by omega)]

theorem shiftDown_apply (m : Nat → α) (lo n k : Nat) :
    shiftDown m lo n k = if lo ≤ k ∧ k < lo + n then m (k + 1) else m k := by
  induction n generalizing m lo with
  | zero => rw [shiftDown, if_neg (by omega)]
  | succ n ih =>
    rw [shiftDown, ih]
    by_cases hin : lo + 1 ≤ k ∧ k < lo + 1 + n
    · rw [if_pos hin, if_pos (by omega), update_of_ne (by omega)]
    rw [if_neg hin]
    by_cases hfirst : k = lo
    · rw [hfirst, update_self, if_pos (by omega)]
    · rw [update_of_ne hfirst, if_neg (by omega)]

/-! ## The order of the history -/

/-- `history[0..history_count)`. -/
def History.visible (h : History) : List (List UInt8) := (List.range h.count).map h.lines

/-- Immediate repetitions removed. -/
def dedupe : List (List UInt8) → List (List UInt8)
  | [] => []
  | x :: l => if l.head? = some x then dedupe l else x :: dedupe l

/-- The last 16 lines, newest first. -/
def recent (ls : List (List UInt8)) : List (List UInt8) := (dedupe ls.reverse).take historySize

/-- The history after the lines, from an empty one. -/
def History.ofLines (ls : List (List UInt8)) : History := ls.foldl History.add ⟨fun _ => [], 0⟩

/-- A line that both ends of the history agree on, and that needs no room in a full one. -/
def Fits (h : List (List UInt8)) (x : List UInt8) : Prop :=
  (h.head? = some x ↔ h.getLast? = some x) ∧ (h.length = historySize → h.head? = some x)

theorem History.visible_add (h : History) {x : List UInt8} (hx : x ≠ []) (hcount : h.count ≤ 16) :
    (h.add x).visible = if h.visible.getLast? = some x then h.visible
      else if h.visible.length = 16 then h.visible.tail else x :: h.visible := by
  have hlen : h.visible.length = h.count := by simp [visible]
  have hlast : h.visible.getLast? = some x ↔ 0 < h.count ∧ x = h.lines (h.count - 1) := by
    cases hc : h.count with
    | zero => simp [visible, hc]
    | succ n => simp [visible, hc, range_succ, eq_comm]
  unfold add
  rw [if_neg hx, hlen]
  by_cases hrep : 0 < h.count ∧ x = h.lines (h.count - 1)
  · rw [if_pos hrep, if_pos (hlast.mpr hrep)]
  rw [if_neg hrep, if_neg (mt hlast.mp hrep)]
  by_cases hfull : h.count = 16
  · rw [if_pos (show 16 ≤ h.count by omega), if_pos hfull]
    apply List.ext_getElem?
    intro i
    by_cases hi : i < 15
    · have hslot : update (shiftDown h.lines 0 15) 15 x i = h.lines (i + 1) := by
        rw [update_of_ne (by omega), shiftDown_apply, if_pos (by omega)]
      simp [visible, hfull, hi, hslot]
    · simp [visible, hfull, hi]
  rw [if_neg (show ¬16 ≤ h.count by omega), if_neg hfull]
  simp only [visible, range_succ_eq_map, map_cons, map_map, update_self]
  congr 1
  refine map_congr_left fun i hi => ?_
  have hlt := mem_range.mp hi
  show update (shiftUp h.lines 0 h.count) 0 x (i + 1) = h.lines i
  rw [update_of_ne (by omega), shiftUp_apply, if_pos (by omega)]
  rfl

theorem head?_dedupe (l : List (List UInt8)) : (dedupe l).head? = l.head? := by
  induction l with
  | nil => rfl
  | cons x l ih =>
    rw [dedupe]
    split
    next hrep => rw [ih, hrep, head?_cons]
    next => rfl

theorem recent_append (p : List (List UInt8)) (x : List UInt8) : recent (p ++ [x]) =
    if (recent p).head? = some x then recent p else (x :: recent p).take historySize := by
  have hhead : (recent p).head? = p.reverse.head? := by
    rw [recent, List.head?_take, if_neg (by decide), head?_dedupe]
  rw [hhead, recent, List.reverse_append, List.reverse_singleton, singleton_append, dedupe]
  split
  · rfl
  · rw [take_succ_cons, take_succ_cons, recent, take_take]
    rfl

/-- Where `history_add` does what is asked of it. -/
theorem add_eq_iff_fits {h : List (List UInt8)} {x : List UInt8} (hlen : h.length ≤ 16) :
    (if h.getLast? = some x then h else if h.length = 16 then h.tail else x :: h) =
      (if h.head? = some x then h else (x :: h).take historySize) ↔ Fits h x := by
  unfold Fits historySize
  by_cases hlast : h.getLast? = some x <;> by_cases hhead : h.head? = some x
  · simp [hlast, hhead]
  · -- the line is like the oldest one, and was dropped
    rw [if_pos hlast, if_neg hhead]
    refine iff_of_false (fun heq => hhead ?_) fun hfits => hhead (hfits.1.mpr hlast)
    rw [heq]
    rfl
  · -- the line is like the newest one, and was not dropped
    rw [if_neg hlast, if_pos hhead]
    refine iff_of_false (fun heq => ?_) fun hfits => hlast (hfits.1.mp hhead)
    have hsize := congrArg List.length heq
    split at hsize
    · rw [List.length_tail] at hsize
      omega
    · exact absurd hsize (Nat.succ_ne_self _)
  rw [if_neg hlast, if_neg hhead]
  by_cases hfull : h.length = 16
  · -- no room: the newest line is dropped for one that is not counted
    rw [if_pos hfull]
    refine iff_of_false (fun heq => ?_) fun hfits => hhead (hfits.2 hfull)
    have hsize := congrArg List.length heq
    simp only [List.length_tail, length_take, length_cons] at hsize
    omega
  · rw [if_neg hfull, take_of_length_le (by rw [length_cons]; omega)]
    simp [hlast, hhead, hfull]

theorem visible_append_iff {p : List (List UInt8)} {x : List UInt8} (hx : x ≠ [])
    (hv : (History.ofLines p).visible = recent p) :
    (History.ofLines (p ++ [x])).visible = recent (p ++ [x]) ↔ Fits (recent p) x := by
  have hlen : (recent p).length ≤ 16 := List.length_take_le ..
  have hcount : (History.ofLines p).count ≤ 16 := by
    have := congrArg List.length hv
    simp only [History.visible, length_map, length_range] at this
    omega
  have hstep : History.ofLines (p ++ [x]) = (History.ofLines p).add x := foldl_append ..
  rw [hstep, History.visible_add _ hx hcount, hv, recent_append]
  exact add_eq_iff_fits hlen

/-- The history is the last lines, newest first, all the way through a sequence, exactly if each
    line fits what was there. -/
theorem history_recent_iff (ls : List (List UInt8)) (hne : ∀ l ∈ ls, l ≠ []) :
    (∀ p, p <+: ls → (History.ofLines p).visible = recent p) ↔
      ∀ p x, p ++ [x] <+: ls → Fits (recent p) x := by
  have hx : ∀ {p x}, p ++ [x] <+: ls → x ≠ [] := fun h =>
    hne _ (h.subset (mem_append_right _ mem_cons_self))
  constructor
  · intro hall p x hp
    exact (visible_append_iff (hx hp) (hall p ((List.prefix_append ..).trans hp))).mp (hall _ hp)
  · intro hfits p
    -- along the sequence, from its beginning
    induction p using List.reverseRecOn with
    | nil => exact fun _ => rfl
    | append_singleton p x ih =>
      intro hp
      have hv := ih ((List.prefix_append ..).trans hp)
      exact (visible_append_iff (hx hp) hv).mpr (hfits p x hp)

/-- Three different lines. -/
theorem history_recent_iff_abc :
    (History.ofLines [[97], [98], [99]]).visible = recent [[97], [98], [99]] ∧
      recent [[97], [98], [99]] = [[99], [98], [97]] := by
  refine ⟨(history_recent_iff [[97], [98], [99]] (by decide)).mpr (fun p x hp => ?_) _
    List.prefix_rfl, by decide⟩
  have hinit : p ++ [x] ∈ [[97], [98], [99]].inits := List.mem_inits _ _ |>.mpr hp
  have hcases : ∀ q ∈ ([[97], [98], [99]] : List (List UInt8)).inits, q ≠ [] →
      Fits (recent q.dropLast) (q.getLastD []) := by
    unfold Fits
    decide
  simpa using hcases _ hinit (by simp)

/-- A repetition of the newest line is kept, and one of the oldest is dropped. -/
theorem history_misordered :
    (History.ofLines [[97], [98], [98]]).visible = [[98], [98], [97]] ∧
      recent [[97], [98], [98]] = [[98], [97]] ∧
      (History.ofLines [[97], [98], [97]]).visible = [[98], [97]] ∧
      recent [[97], [98], [97]] = [[97], [98], [97]] := by
  decide

/-! ## The reference editor -/

/-- A line with a cursor. -/
structure Line where
  text : List UInt8
  cursor : Nat

/-- What a key does to a line that holds at most `max - 2` characters. -/
def Line.key (max : Nat) (l : Line) (c : UInt8) : Line :=
  if c = 3 then { l with cursor := l.cursor - 1 }
  else if c = 4 then { l with cursor := min (l.cursor + 1) l.text.length }
  else if c = 8 then
    if 0 < l.cursor then ⟨l.text.eraseIdx (l.cursor - 1), l.cursor - 1⟩ else l
  else if l.text.length < max - 2 then ⟨l.text.insertIdx l.cursor c, l.cursor + 1⟩
  else l

/-- A line after keys, from an empty one. -/
def Line.typed (max : Nat) (keys : List UInt8) : Line := keys.foldl (Line.key max) ⟨[], 0⟩

/-- The editor holds the line `l`, and has left the bytes of `m` from `max` on. -/
structure Shows (max : Nat) (m : Mem) (s : Editor) (l : Line) : Prop where
  len : s.len = l.text.length
  pos : s.pos = l.cursor
  cursor : l.cursor ≤ l.text.length
  bytes : ∀ i, i < l.text.length → l.text[i]? = some (s.buf i)
  room : l.text.length ≤ max - 2
  outside : ∀ i, max ≤ i → s.buf i = m i
  draft : s.histPos = 0

variable {max : Nat} {m : Mem} {s : Editor} {l : Line} {c : UInt8} {h : History}

theorem Shows.erase (hs : Shows max m s l) (hcur : 0 < l.cursor) :
    Shows max m
      { s with
        buf := shiftDown s.buf (s.pos - 1) (s.len - s.pos)
        len := s.len - 1
        pos := s.pos - 1 } ⟨l.text.eraseIdx (l.cursor - 1), l.cursor - 1⟩ := by
  have hle := hs.cursor
  have hroom := hs.room
  have hlen : (l.text.eraseIdx (l.cursor - 1)).length = l.text.length - 1 :=
    List.length_eraseIdx_of_lt (by omega)
  rw [hs.len, hs.pos]
  refine ⟨hlen.symm, rfl, by simp only [hlen]; omega, fun i hi => ?_, by simp only [hlen]; omega,
    fun i hi => ?_, hs.draft⟩
  · simp only [hlen] at hi ⊢
    rw [List.getElem?_eraseIdx, shiftDown_apply]
    by_cases hbefore : i < l.cursor - 1
    · rw [if_pos hbefore, if_neg (by omega), hs.bytes i (by omega)]
    · rw [if_neg hbefore, if_pos (by omega), hs.bytes (i + 1) (by omega)]
  · dsimp only
    rw [← hs.outside i hi, shiftDown_apply, if_neg (by omega)]

theorem Shows.insert (hs : Shows max m s l) (hfree : l.text.length < max - 2) :
    Shows max m
      { s with
        buf := update (shiftUp s.buf s.pos (s.len - s.pos)) s.pos c
        len := s.len + 1
        pos := s.pos + 1 } ⟨l.text.insertIdx l.cursor c, l.cursor + 1⟩ := by
  have hle := hs.cursor
  have hlen : (l.text.insertIdx l.cursor c).length = l.text.length + 1 :=
    List.length_insertIdx_of_le_length hle ..
  rw [hs.len, hs.pos]
  refine ⟨hlen.symm, rfl, by simp only [hlen]; omega, fun i hi => ?_, by simp only [hlen]; omega,
    fun i hi => ?_, hs.draft⟩
  · simp only [hlen] at hi ⊢
    rw [List.getElem?_insertIdx]
    rcases Nat.lt_trichotomy i l.cursor with hlt | rfl | hgt
    · rw [if_pos hlt, update_of_ne (by omega), shiftUp_apply, if_neg (by omega),
        hs.bytes i (by omega)]
    · rw [if_neg (by omega), if_pos rfl, if_pos hle, update_self]
    · rw [if_neg (by omega), if_neg (by omega), update_of_ne (by omega), shiftUp_apply,
        if_pos (by omega), hs.bytes (i - 1) (by omega)]
  · dsimp only
    rw [← hs.outside i hi, update_of_ne (by omega), shiftUp_apply, if_neg (by omega)]

theorem Shows.key (hs : Shows max m s l) (hup : c ≠ 1) (hdown : c ≠ 2) :
    Shows max m (s.key h max c) (l.key max c) := by
  have hpos : min s.pos s.len = s.pos := by
    rw [hs.pos, hs.len]
    exact Nat.min_eq_left hs.cursor
  have hle := hs.cursor
  unfold Editor.key Line.key
  simp only [hpos, hup, hdown, false_and, if_false]
  split
  · -- KEY_LEFT
    exact { hs with pos := congrArg (· - 1) hs.pos, cursor := by simp only; omega }
  split
  · -- KEY_RIGHT
    exact { hs with pos := by simp only [hs.pos, hs.len], cursor := Nat.min_le_right .. }
  split
  · rw [hs.pos]
    split
    next hcur => simpa only [hs.pos] using hs.erase hcur
    next => simpa only [← hs.pos] using hs
  rw [hs.len]
  split
  next hfree => simpa only [hs.len] using hs.insert hfree
  next => simpa only [← hs.len] using hs

theorem typed_cons (hgo : s.len < max - 1) (keys : List UInt8) :
    s.typed h max (c :: keys) = (s.key h max c).typed h max keys := by
  rw [Editor.typed, foldl_cons, if_pos hgo, Editor.typed]

theorem Shows.typed (hs : Shows max m s l) (hmax : 3 ≤ max) {keys : List UInt8}
    (hkeys : ∀ c ∈ keys, c ≠ 1 ∧ c ≠ 2) :
    Shows max m (s.typed h max keys) (keys.foldl (Line.key max) l) := by
  induction keys generalizing s l with
  | nil => exact hs
  | cons c keys ih =>
    -- the line is never too long for another key
    have hgo : s.len < max - 1 := by
      have := hs.room
      rw [hs.len]
      omega
    have hc := hkeys c mem_cons_self
    rw [typed_cons hgo]
    exact ih (hs.key hc.1 hc.2) fun c hc => hkeys c (mem_cons_of_mem _ hc)

theorem shows_typed (hmax : 3 ≤ max) {keys : List UInt8}
    (hkeys : ∀ c ∈ keys, c ≠ 1 ∧ c ≠ 2 ∧ c ≠ 10) (saved : List UInt8) :
    Shows max m ((Editor.start m saved).typed h max keys) (Line.typed max keys) :=
  Shows.typed ⟨rfl, rfl, le_rfl, fun _ hi => absurd hi (Nat.not_lt_zero _), Nat.zero_le _,
    fun i hi => update_of_ne (by omega) .., rfl⟩ hmax fun c hc => ⟨(hkeys c hc).1, (hkeys c hc).2.1⟩

/-- `readline` leaves the text of the reference editor, with its terminator, and nothing at or
    after `buf[max]` changes. -/
theorem readline_eq_line (h : History) (max : Nat) (hmax : 3 ≤ max) (mem : Mem)
    (saved keys : List UInt8) (hkeys : ∀ c ∈ keys, c ≠ 1 ∧ c ≠ 2 ∧ c ≠ 10) :
    let buf := (readline h max mem saved keys).1
    let text := (Line.typed max keys).text
    (List.range text.length).map buf = text ∧ buf text.length = 0 ∧
      ∀ i, max ≤ i → buf i = mem i := by
  have hs := shows_typed (m := mem) (h := h) hmax hkeys saved
  intro buf text
  have hroom : text.length ≤ max - 2 := hs.room
  have hbuf : buf = update ((Editor.start mem saved).typed h max keys).buf text.length 0 :=
    congrArg (update _ · 0) hs.len
  rw [hbuf]
  refine ⟨List.ext_getElem? fun i => ?_, update_self .., fun i hi => ?_⟩
  · by_cases hi : i < text.length
    · rw [List.getElem?_map, List.getElem?_range hi, map_some,
        update_of_ne (by omega)]
      exact (hs.bytes i hi).symm
    · rw [List.getElem?_eq_none (by simpa using hi), List.getElem?_eq_none (by omega)]
  · rw [update_of_ne (by omega)]
    exact hs.outside i hi

/-- `b`, LEFT, `a`: the line is `ab`. -/
theorem readline_eq_line_ab :
    let buf := (readline ⟨fun _ => [], 0⟩ 256 (fun _ => 7) [] [98, 3, 97]).1
    (Line.typed 256 [98, 3, 97]).text = [97, 98] ∧ (List.range 2).map buf = [97, 98] ∧
      buf 2 = 0 :=
  have hab := readline_eq_line ⟨fun _ => [], 0⟩ 256 (by decide) (fun _ => 7) [] [98, 3, 97]
    (by simp)
  ⟨by decide, hab.1, hab.2.1⟩

/-! ## Browsing the history -/

/-- The lines of the history are strings that `readline` can return. -/
def History.Holds (h : History) (max : Nat) : Prop :=
  ∀ l ∈ h.visible, (∀ b ∈ l, b ≠ 0) ∧ l.length ≤ max - 2

theorem History.Holds.add (hh : h.Holds max) {x : List UInt8} (hx : x ≠ []) (hcount : h.count ≤ 16)
    (hok : (∀ b ∈ x, b ≠ 0) ∧ x.length ≤ max - 2) : (h.add x).Holds max := by
  intro l hl
  rw [visible_add h hx hcount] at hl
  split at hl
  · exact hh l hl
  split at hl
  · exact hh l (List.mem_of_mem_tail hl)
  rcases mem_cons.mp hl with rfl | hl
  · exact hok
  · exact hh l hl

theorem strOf_ne_zero {b : UInt8} (hb : b ∈ strOf m) : b ≠ 0 := by
  simpa using List.mem_takeWhile_imp hb

theorem length_strOf_le (m : Mem) : (strOf m).length ≤ lineBuf := by
  simpa [strOf] using (List.takeWhile_prefix (p := (· != 0)) (l := (range lineBuf).map m)).length_le

/-- A string shorter than its buffer is followed by the first zero byte. -/
theorem strOf_eq_iff {w : List UInt8} (hw : ∀ b ∈ w, b ≠ 0) (hlen : w.length < lineBuf) :
    strOf m = w ↔ (∀ i, i < w.length → m i = w.getD i 0) ∧ m w.length = 0 := by
  rw [strOf, takeWhile_map_range_eq_iff hw hlen]

theorem length_strOf_eq_iff {n : Nat} (hn : n < lineBuf) :
    (strOf m).length = n ↔ m n = 0 ∧ ∀ i, i < n → m i ≠ 0 := by
  constructor
  · rintro rfl
    obtain ⟨hbytes, hend⟩ := (strOf_eq_iff (fun _ => strOf_ne_zero) hn).mp rfl
    refine ⟨hend, fun i hi => ?_⟩
    rw [hbytes i hi, List.getD_eq_getElem _ _ hi]
    exact strOf_ne_zero (List.getElem_mem _)
  · rintro ⟨hend, hbytes⟩
    have hw : strOf m = (range n).map m :=
      (strOf_eq_iff (by simpa using hbytes) (by simpa using hn)).mpr
        ⟨fun i hi => by simp at hi; simp [hi], by simpa using hend⟩
    simp [hw]

/-- A string is read back as it was copied. -/
theorem strOf_copyLine {w : List UInt8} (hw : ∀ b ∈ w, b ≠ 0) (hlen : w.length ≤ lineBuf) :
    strOf (copyLine w m) = w := by
  have hcopied : ∀ i, i < w.length → copyLine w m i = w.getD i 0 := by
    intro i hi
    rw [copyLine, if_neg (by omega), List.getD_eq_getElem _ _ hi, List.getD_eq_getElem _ _ hi]
  rcases Nat.lt_or_eq_of_le hlen with hlt | heq
  · exact (strOf_eq_iff hw hlt).mpr ⟨hcopied, if_pos rfl⟩
  · -- a string without a terminator in the buffer
    have hcells : (range lineBuf).map (copyLine w m) = w := by
      refine ext_getElem (by simp [heq]) fun i _ hi => ?_
      rw [List.getElem_map, List.getElem_range, hcopied i hi, List.getD_eq_getElem _ _ hi]
    rw [strOf, hcells]
    exact List.takeWhile_eq_self_iff.mpr (by simpa using hw)

section

variable (hh : h.Holds max) (hmax : 3 ≤ max) (hbuf : max ≤ lineBuf)
include hh hmax hbuf

/-- A line of the history leaves room for another key. -/
theorem len_recall_lt {i : Nat} (hi : i < h.count) : (s.recallLine (h.lines i)).len < max - 1 := by
  obtain ⟨hne, hlen⟩ := hh (h.lines i) (mem_map_of_mem (mem_range.mpr hi))
  have hrecall : (s.recallLine (h.lines i)).len = (h.lines i).length :=
    congrArg List.length (strOf_copyLine hne (by omega))
  omega

theorem key_up {j : Nat} (hj : s.histPos = j) (hlt : j < h.count) :
    (s.key h max 1).histPos = j + 1 ∧ (s.key h max 1).len < max - 1 ∧
      (s.key h max 1).saved = if j = 0 then strOf s.buf else s.saved := by
  have hkey := len_recall_lt hh hmax hbuf (s := s) hlt
  cases j with
  | zero => simpa [Editor.key, hj, hlt, Editor.recallLine] using hkey
  | succ j => simpa [Editor.key, hj, hlt, Editor.recallLine, Nat.zero_lt_of_lt hlt] using hkey

theorem strOf_key_up {j : Nat} (hj : s.histPos = j) (hlt : j < h.count) :
    strOf (s.key h max 1).buf = h.lines j := by
  obtain ⟨hne, hlen⟩ := hh (h.lines j) (mem_map_of_mem (mem_range.mpr hlt))
  have hcopy : (s.key h max 1).buf = copyLine (h.lines j) s.buf := by
    cases j with
    | zero => simp [Editor.key, hj, hlt, Editor.recallLine]
    | succ j => simp [Editor.key, hj, hlt, Editor.recallLine, Nat.zero_lt_of_lt hlt]
  rw [hcopy]
  exact strOf_copyLine hne (by omega)

/-- UP `k + 1` times shows line `k` of the history, counted from the newest. -/
theorem strOf_typed_up {j : Nat} (hj : s.histPos = j) (hlen : s.len < max - 1) (k : Nat)
    (hk : j + k < h.count) :
    h.visible[j + k]? = some (strOf (s.typed h max (replicate (k + 1) 1)).buf) := by
  induction k generalizing s j with
  | zero =>
    rw [replicate_succ, typed_cons hlen]
    show _ = some (strOf (s.key h max 1).buf)
    rw [strOf_key_up hh hmax hbuf hj hk, History.visible, List.getElem?_map,
      List.getElem?_range hk]
    rfl
  | succ k ih =>
    obtain ⟨hpos, hgo, -⟩ := key_up hh hmax hbuf hj (by omega)
    rw [replicate_succ, typed_cons hlen, ← ih hpos hgo (by omega), Nat.add_right_comm]
    rfl

/-- UP `k` times, then DOWN as many times, is a copy of the saved line. -/
theorem typed_browse {j : Nat} (hj : s.histPos = j + 1) (hlen : s.len < max - 1) (k : Nat)
    (hk : j + 1 + k ≤ h.count) :
    ∃ b, s.typed h max (replicate k 1 ++ replicate (j + 1 + k) 2) =
      ⟨copyLine s.saved b, (strOf (copyLine s.saved b)).length,
        (strOf (copyLine s.saved b)).length, 0, s.saved⟩ := by
  induction k generalizing s j with
  | zero =>
    simp only [List.replicate_zero, nil_append, Nat.add_zero] at hk ⊢
    induction j generalizing s with
    | zero =>
      refine ⟨s.buf, ?_⟩
      rw [replicate_succ, typed_cons hlen]
      simp [Editor.key, hj, Editor.recallLine, Editor.typed]
    | succ j ih =>
      have hkey : s.key h max 2 =
          { s with histPos := j + 1, pos := min s.pos s.len }.recallLine (h.lines j) := by
        simp [Editor.key, hj]
      rw [replicate_succ, typed_cons hlen, hkey]
      exact ih rfl (len_recall_lt hh hmax hbuf (by omega)) (by omega)
  | succ k ih =>
    obtain ⟨hpos, hgo, hsaved⟩ := key_up hh hmax hbuf hj (by omega)
    rw [if_neg (by omega)] at hsaved
    rw [replicate_succ, cons_append, typed_cons hlen, ← hsaved,
      show j + 1 + (k + 1) = j + 1 + 1 + k by omega]
    exact ih hpos hgo (by omega)

end

/-- Browsing restores the draft exactly if the buffer has its terminator after it. -/
theorem draft_restored_iff (h : History) (max : Nat) (hmax : 3 ≤ max) (hbuf : max ≤ lineBuf)
    (hh : h.Holds max) (mem : Mem) (saved keys : List UInt8)
    (hkeys : ∀ c ∈ keys, c ≠ 1 ∧ c ≠ 2 ∧ c ≠ 10) (k : Nat) (hk : 1 ≤ k) (hcount : k ≤ h.count) :
    let s := (Editor.start mem saved).typed h max keys
    let t := s.typed h max (List.replicate k 1 ++ List.replicate k 2)
    (t.len = s.len ∧ ∀ i, i < s.len → t.buf i = s.buf i) ↔
      s.buf s.len = 0 ∧ ∀ i, i < s.len → s.buf i ≠ 0 := by
  have hs := shows_typed (m := mem) (h := h) hmax hkeys saved
  intro s
  have hlen : s.len ≤ max - 2 := hs.len ▸ hs.room
  have hdraft : s.histPos = 0 := hs.draft
  clear_value s
  obtain ⟨k, rfl⟩ : ∃ n, k = n + 1 := ⟨k - 1, by omega⟩
  obtain ⟨hpos, hgo, hsaved⟩ := key_up hh hmax hbuf hdraft (by omega)
  obtain ⟨b, ht⟩ := typed_browse hh hmax hbuf hpos hgo k (by omega)
  rw [replicate_succ, cons_append, typed_cons (by omega), Nat.add_comm k 1, ht, hsaved,
    if_pos rfl]
  dsimp only
  rw [strOf_copyLine (fun _ => strOf_ne_zero) (length_strOf_le _), ← length_strOf_eq_iff (by omega)]
  refine and_iff_left_of_imp fun heq i hi => ?_
  obtain ⟨hbytes, -⟩ := (strOf_eq_iff (m := s.buf) (fun _ => strOf_ne_zero) (by omega)).mp rfl
  rw [copyLine, if_neg (by omega), hbytes i (by omega), List.getD_eq_getElem _ _ (by omega),
    List.getD_eq_getElem _ _ (by omega)]

/-- In a buffer of zeros. -/
theorem draft_restored_iff_zeros :
    ((Editor.start (fun _ => 0) []).typed ⟨fun _ => [120], 1⟩ 256 [122, 1, 2]).len = 1 :=
  ((draft_restored_iff ⟨fun _ => [120], 1⟩ 256 (by decide) (by decide)
    (fun l hl => by
      have hl' : l = [120] := by simpa [History.visible] using hl
      simp [hl']) (fun _ => 0) [] [122] (by simp) 1 (by decide) (by decide)).mpr (by decide)).1

/-- The rest of a line typed before: over `abc`, the draft `z` comes back as `zbc`. -/
theorem draft_not_restored :
    let s := (Editor.start (fun i => [97, 98, 99].getD i 0) []).typed ⟨fun _ => [120], 1⟩ 256 [122]
    s.len = 1 ∧ strOf (s.typed ⟨fun _ => [120], 1⟩ 256 [1, 2]).buf = [122, 98, 99] ∧
      (s.typed ⟨fun _ => [120], 1⟩ 256 [1, 2]).len = 3 := by
  decide +kernel

end Noverix.Shell
