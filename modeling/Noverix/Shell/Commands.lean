/-
  Where `handle_cmd` and the argument parsing of `execute_cmd` store (kernel/kernel.c).

  A line is the bytes before its terminator, and so is what a copy loop has put in an
  array; the model records each store as the array and the index.  Commands other than
  `echo` and `tcp` store to none of the arrays.  What the capture buffer holds and how
  many bytes `tcp_recv` returns (0 without a connection) are parameters.
-/

import Noverix.Shell.Readline
import Mathlib.Data.List.DropRight

namespace Noverix.Shell

/-! ## The model -/

/-- The arrays; the two commands of a pipe have their own `cmd` and `arg`, of the same sizes. -/
inductive Arr where
  | left | right | cmd | arg | ipStr | portStr | msg | recvBuf | pipeData
  deriving DecidableEq

def Arr.size : Arr → Nat
  | .ipStr => 32
  | .portStr => 16
  | .msg => 128
  | .recvBuf => 1460
  | .pipeData => 4096
  | _ => lineBuf

/-- `n` bytes are stored from the start of an array on, and a terminator behind them. -/
def copyTo (a : Arr) (n : Nat) : List (Arr × Nat) := (List.range (n + 1)).map (a, ·)

/-- `while (*p == ' ') p++;` -/
def skip (s : List UInt8) : List UInt8 := s.dropWhile (· == 32)

/-- `while (*p && *p != ' ')`: what is copied, and what is behind it. -/
def word (s : List UInt8) : List UInt8 × List UInt8 :=
  (s.takeWhile (· != 32), s.dropWhile (· != 32))

/-- The command and its argument. -/
def splitCmd (s : List UInt8) : List UInt8 × List UInt8 :=
  ((word (skip s)).1, skip (word (skip s)).2)

/-- The loops that fill `cmd` and `arg`. -/
def parseCmd (s : List UInt8) : List (Arr × Nat) :=
  copyTo .cmd (splitCmd s).1.length ++ copyTo .arg (splitCmd s).2.length

/-- The address and the rest of the argument of `tcp`. -/
def ipOf (arg : List UInt8) : List UInt8 × List UInt8 := word (skip arg)

/-- The port and the rest. -/
def portOf (arg : List UInt8) : List UInt8 × List UInt8 := word (skip (ipOf arg).2)

/-- `echo` with `>` or `>>` in its argument, which it cuts there. -/
def redirect (arg : List UInt8) : List (Arr × Nat) :=
  let redir := (arg.takeWhile (· != 62)).length
  if redir < lineBuf - 1 ∧ arg[redir]? = some 62 then
    (if arg[redir + 1]? = some 62 then [(.arg, redir + 1)] else []) ++ [(.arg, redir)]
  else []

/-- `execute_cmd`, for a command and its argument; `tcp_recv` returns `n`. -/
def executeCmd (c : List UInt8 × List UInt8) (n : Nat) : List (Arr × Nat) :=
  if c.1 = [101, 99, 104, 111] then redirect c.2
  else if c.1 = [116, 99, 112] then
    copyTo .ipStr (ipOf c.2).1.length ++ copyTo .portStr (portOf c.2).1.length ++
      copyTo .msg (min (skip (portOf c.2).2).length 127) ++
      if (ipOf c.2).1 = [] ∨ (portOf c.2).1 = [] ∨ n = 0 then []
      else copyTo .recvBuf n
  else []

/-- What is in `left` before the spaces at its end are cut off. -/
def leftCopy (line : List UInt8) : List UInt8 := (line.takeWhile (· != 124)).take (lineBuf - 1)

/-- `left`. -/
def leftOf (line : List UInt8) : List UInt8 := (leftCopy line).rdropWhile (· == 32)

/-- What is in `right` before it is moved to its start. -/
def rightCopy (line : List UInt8) : List UInt8 :=
  ((line.dropWhile (· != 124)).tail).take (lineBuf - 1)

/-- The commands that are executed. -/
def stages (line : List UInt8) : List (List UInt8 × List UInt8) :=
  if 124 ∈ line then
    let c1 := splitCmd (leftOf line)
    let c2 := splitCmd (skip (rightCopy line))
    if c1.1 = [] ∨ c2.1 = [] then [] else [c1, c2]
  else [splitCmd line]

/-- `handle_cmd`; the capture buffer has `captured` bytes when the first command is done, and
    `n1` and `n2` are for the `tcp_recv` of the two commands. -/
def handleCmd (line : List UInt8) (captured n1 n2 : Nat) : List (Arr × Nat) :=
  if 124 ∈ line then
    let right := skip (rightCopy line)
    copyTo .left (leftCopy line).length ++
      (List.range' (leftOf line).length ((leftCopy line).length - (leftOf line).length)).map
        (Arr.left, ·) ++
      copyTo .right (rightCopy line).length ++
      (if right = rightCopy line then [] else copyTo .right right.length) ++
      parseCmd (leftOf line) ++ parseCmd right ++
      match stages line with
      | [c1, c2] => executeCmd c1 n1 ++ copyTo .pipeData (min captured 4095) ++ executeCmd c2 n2
      | _ => []
  else parseCmd line ++ executeCmd (splitCmd line) n1

/-! ## The stores -/

/-- Every store is in its array. -/
def Inside (ws : List (Arr × Nat)) : Prop := ∀ w ∈ ws, w.2 < w.1.size

variable {a b : List (Arr × Nat)} {line s : List UInt8}

theorem inside_append : Inside (a ++ b) ↔ Inside a ∧ Inside b := List.forall_mem_append

theorem inside_copyTo (x : Arr) (n : Nat) : Inside (copyTo x n) ↔ n < x.size := by
  constructor
  · intro h
    exact h (x, n) (mem_map.mpr ⟨n, mem_range.mpr (Nat.lt_succ_self n), rfl⟩)
  · rintro h _ hw
    obtain ⟨i, hi, rfl⟩ := mem_map.mp hw
    have hle := mem_range.mp hi
    show i < x.size
    omega

theorem length_skip_le (s : List UInt8) : (skip s).length ≤ s.length :=
  (List.dropWhile_suffix _).length_le

theorem inside_parseCmd (hs : s.length < lineBuf) : Inside (parseCmd s) := by
  have hword : (splitCmd s).1.length ≤ (skip s).length := (List.takeWhile_prefix _).length_le
  have hrest : (word (skip s)).2.length ≤ (skip s).length := (List.dropWhile_suffix _).length_le
  have harg : (splitCmd s).2.length ≤ _ := length_skip_le _
  have hskip := length_skip_le s
  rw [parseCmd, inside_append, inside_copyTo, inside_copyTo]
  show _ < lineBuf ∧ _ < lineBuf
  omega

/-- A `tcp` command whose words fit their arrays, and that is sent less than its buffer holds. -/
def Fitting (c : List UInt8 × List UInt8) (n : Nat) : Prop :=
  c.1 = [116, 99, 112] → (ipOf c.2).1.length < 32 ∧ (portOf c.2).1.length < 16 ∧
    ((ipOf c.2).1 ≠ [] → (portOf c.2).1 ≠ [] → n < 1460)

theorem inside_redirect (arg : List UInt8) : Inside (redirect arg) := by
  intro w hw
  simp only [redirect] at hw
  split_ifs at hw with hredir
  · rcases mem_cons.mp hw with rfl | hw
    · exact Nat.succ_lt_succ hredir.1
    · exact mem_singleton.mp hw ▸ Nat.lt_succ_of_lt hredir.1
  · exact mem_singleton.mp hw ▸ Nat.lt_succ_of_lt hredir.1
  · cases hw

theorem inside_executeCmd (c : List UInt8 × List UInt8) (n : Nat) :
    Inside (executeCmd c n) ↔ Fitting c n := by
  unfold executeCmd Fitting
  by_cases hecho : c.1 = [101, 99, 104, 111]
  · simp [hecho, inside_redirect]
  rw [if_neg hecho]
  by_cases htcp : c.1 = [116, 99, 112]
  · simp only [htcp, if_true, true_implies, inside_append, inside_copyTo, Arr.size]
    have hmsg : min (skip (portOf c.2).2).length 127 < 128 := by omega
    split
    next hnone =>
      have hrecv : (ipOf c.2).1 ≠ [] → (portOf c.2).1 ≠ [] → n < 1460 := by
        intro hip hport
        have := (hnone.resolve_left hip).resolve_left hport
        omega
      exact ⟨fun h => ⟨h.1.1.1, h.1.1.2, hrecv⟩,
        fun h => ⟨⟨⟨h.1, h.2.1⟩, hmsg⟩, fun _ hw => absurd hw not_mem_nil⟩⟩
    next hsome =>
      simp only [not_or] at hsome
      simp [hmsg, hsome, inside_copyTo, Arr.size, and_assoc]
  · simp [htcp, Inside]

/-- The loops of `handle_cmd` itself stay in their arrays. -/
theorem inside_leftRight (line : List UInt8) :
    (leftCopy line).length < lineBuf ∧ (leftOf line).length ≤ (leftCopy line).length ∧
      (rightCopy line).length < lineBuf :=
  ⟨Nat.lt_succ_of_le (List.length_take_le ..), (List.rdropWhile_prefix _ _).length_le,
    Nat.lt_succ_of_le (List.length_take_le ..)⟩

/-- The stores of a line are inside the arrays exactly if the `tcp` commands in it fit. -/
theorem shell_stores_inside_iff (line : List UInt8) (hline : line.length ≤ 254)
    (captured n1 n2 : Nat) :
    Inside (handleCmd line captured n1 n2) ↔
      ∀ c ∈ (stages line).zip [n1, n2], Fitting c.1 c.2 := by
  obtain ⟨hleft, hcut, hright⟩ := inside_leftRight line
  unfold handleCmd stages
  by_cases hpipe : (124 : UInt8) ∈ line
  · have htrim : Inside ((List.range' (leftOf line).length
        ((leftCopy line).length - (leftOf line).length)).map (Arr.left, ·)) := by
      rintro _ hw
      obtain ⟨i, hi, rfl⟩ := mem_map.mp hw
      have := mem_range'_1.mp hi
      show i < lineBuf
      omega
    have hskip := length_skip_le (rightCopy line)
    have hmove : Inside (if skip (rightCopy line) = rightCopy line then []
        else copyTo .right (skip (rightCopy line)).length) := by
      split
      · exact fun _ hw => absurd hw not_mem_nil
      · exact (inside_copyTo _ _).mpr (Nat.lt_of_le_of_lt hskip hright)
    have hpipeData : min captured 4095 < Arr.pipeData.size := by
      show _ < 4096
      omega
    simp only [if_pos hpipe, inside_append, inside_copyTo, htrim, hmove,
      inside_parseCmd (Nat.lt_of_le_of_lt hcut hleft),
      inside_parseCmd (Nat.lt_of_le_of_lt hskip hright), and_true,
      show (leftCopy line).length < Arr.left.size from hleft,
      show (rightCopy line).length < Arr.right.size from hright, true_and]
    split_ifs
    · simp [Inside]
    · simp [inside_append, inside_copyTo, inside_executeCmd, hpipeData]
  · have hsmall : line.length < lineBuf := Nat.lt_of_le_of_lt hline (by decide)
    simp [if_neg hpipe, inside_append, inside_parseCmd hsmall, inside_executeCmd]

/-- `ls | tcp 10.0.2.2 80`. -/
def lsToTcp : List UInt8 :=
  [108, 115, 32, 124, 32, 116, 99, 112, 32, 49, 48, 46, 48, 46, 50, 46, 50, 32, 56, 48]

/-- The `tcp` command behind the pipe receives 1459 bytes. -/
theorem shell_stores_inside_iff_tcp :
    (Arr.ipStr, 8) ∈ handleCmd lsToTcp 100 0 1459 ∧ Inside (handleCmd lsToTcp 100 0 1459) := by
  have hfits : ∀ c ∈ (stages lsToTcp).zip [0, 1459], Fitting c.1 c.2 := by
    unfold Fitting
    decide
  exact ⟨by decide +kernel, (shell_stores_inside_iff lsToTcp (by decide) 100 0 1459).mpr hfits⟩

/-- `tcp`, and a word of 32 characters: the terminator is stored behind `ip_str`. -/
theorem shell_store_outside :
    (Arr.ipStr, 32) ∈ handleCmd ([116, 99, 112, 32] ++ List.replicate 32 49) 0 0 0 ∧
      Arr.ipStr.size = 32 := by
  decide

end Noverix.Shell
