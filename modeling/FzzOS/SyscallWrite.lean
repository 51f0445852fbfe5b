/-
# The system call `write`

`syscall_handler` passes the user's string to `printf` as the format.  What comes out is the
string itself as long as there is no `%` in it; with one the kernel's registers and stack are
printed, or read as addresses.

* `syscallHandler` : the code;
* `WritesExactly` : the bytes of the string and nothing else, sent and read;
* `write_exact_iff` : when that is so;
* `write_eq_putstring` : what the console shows then.
-/
import FzzOS.Console
import FzzOS.Printf
import Mathlib.Data.List.TakeWhile

open Printf

namespace Usermode

variable {mem : U64 → U8} {va : ℕ → U64} {p : U64} {l : List U8} {n : ℕ}

/-- `syscall_handler`: its value, and what `printf` did.  `va` are the variadic arguments that
`printf` finds, which is whatever the argument registers and the stack hold.  The other
parameters are not looked at. -/
def syscallHandler (mem : U64 → U8) (va : ℕ → U64) (n : ℕ) (num param1 : U64) :
    Option (U64 × State) :=
  if num = 1 then (printf mem va n param1).map fun t => (0, t)
  -- read, open, close and ioctl do nothing
  else if num = 0 ∨ num = 2 ∨ num = 3 ∨ num = 0x10 then some (0, start param1)
  else some (-1, start param1)

/-- The bytes of the string at `p` are sent, in order, and nothing else is read. -/
structure WritesExactly (p : U64) (l : List U8) (t : State) : Prop where
  sent : t.sent = l
  reads : ∀ a ∈ t.reads, Within p l.length a
  args : t.args = 0

/-- A string with a `%` is never written exactly. -/
theorem not_writesExactly (h : CString mem p l) (hlen : l.length + 1 < 2 ^ 64)
    (hpercent : ascii '%' ∈ l) {r : U64 × State} (hrun : syscallHandler mem va n 1 p = some r) :
    ¬ WritesExactly p l r.2 := by
  intro hexact
  obtain ⟨t, ht, rfl⟩ := Option.map_eq_some_iff.mp hrun
  obtain ⟨-, new, hnew, -, hfew⟩ := vsnprintf_short h hlen (Nat.zero_le _)
    (BitVec.add_zero p).symm ht hexact.args hexact.reads
  have hsent : new = l := hnew.symm.trans hexact.sent
  have hlt := hfew hpercent
  rw [hsent] at hlt
  omega

/-- **Write.**  The system call sends the string it is given and reads nothing else if and only
if there is no `%` in the string. -/
theorem write_exact_iff (va : ℕ → U64) (h : CString mem p l) (hlen : l.length + 1 < 2 ^ 64) :
    (∃ n r, syscallHandler mem va n 1 p = some r ∧ WritesExactly p l r.2) ↔ ascii '%' ∉ l := by
  constructor
  · rintro ⟨n, r, hrun, hexact⟩ hpercent
    exact not_writesExactly h hlen hpercent hrun hexact
  · intro hplain
    obtain ⟨t, ht, hsent, hargs, hreads⟩ := vsnprintf_plain (s := start p) va h hplain
    refine ⟨l.length + 1, (0, t), ?_, hsent, fun a ha => ?_, hargs⟩
    · show (vsnprintf mem va (l.length + 1) (start p)).map (fun t => ((0 : U64), t)) = some (0, t)
      rw [ht]
      rfl
    · exact (hreads a ha).resolve_left List.not_mem_nil

/-- The three bytes `Hi!`. -/
theorem write_exact_hi :
    ∃ n r, syscallHandler (CString.only [ascii 'H', ascii 'i', ascii '!']) (fun _ => 0) n 1 0
        = some r ∧ WritesExactly 0 [ascii 'H', ascii 'i', ascii '!'] r.2 :=
  (write_exact_iff _ (CString.of_only (by decide) (by decide)) (by decide)).mpr (by decide)

/-- With `%x` for a string the value of an argument nobody passed is printed. -/
theorem write_discloses :
    ¬ ∀ (mem : U64 → U8) (va : ℕ → U64) (p : U64) (l : List U8), CString mem p l →
      l.length + 1 < 2 ^ 64 →
      ∃ n r, syscallHandler mem va n 1 p = some r ∧ WritesExactly p l r.2 := by
  intro hclaim
  have hstring : CString (CString.only [ascii '%', ascii 'x']) (0 : U64) [ascii '%', ascii 'x'] :=
    CString.of_only (by decide) (by decide)
  obtain ⟨n, r, hrun, hexact⟩ := hclaim _ (fun _ => 0x2A) 0 _ hstring (by decide)
  exact not_writesExactly hstring (by decide) (by decide) hrun hexact

example : (syscallHandler (CString.only [ascii '%', ascii 'x']) (fun _ => 0x2A) 3 1 0).map
    (fun r => r.2.sent) = some [ascii '2', ascii 'a'] := by decide

/-- **On the screen** such a string is written as `putstring` would write it. -/
theorem write_eq_putstring (font : ℕ → U8) (c : Console) (h : CString mem p l)
    {t : State} (ht : WritesExactly p l t) :
    t.sent.foldl (fun c ch => Console.putchar font ch c) c = Console.putstring font l c := by
  have hall : l.takeWhile (· ≠ 0) = l :=
    List.takeWhile_eq_self_iff.mpr fun b hb => decide_eq_true (h.ne_zero hb)
  rw [Console.putstring_eq_foldl, hall, ht.sent]

end Usermode
