import Mathlib.Data.List.Lex
import WaluOs.Loops
import WaluOs.Shell

/-!
# `string.c`, and the shell on memory

The kernel brings its own string functions. `strcmp` and `strncmp` order strings as lists of
bytes, and read no byte behind the first difference or the end. With them `execute_command` does
on a line in memory what `executeCommand` does on its bytes (`executeCommandMem_eq`).

`memcpy` copies from the front whatever the direction: where the destination overlaps the source
from behind, the first bytes are repeated (`memcpy_repeats`).

A loop on memory is followed for as long as a string is known to lie there (`StringAt`). It ends
with the string at the latest, so the length of the line is fuel enough.
-/

namespace WaluOs

open Loops

/-! ## The code -/

/-- `strlen`, with at most `fuel` bytes looked at. -/
def strlen (mem : ℕ → UInt8) : ℕ → ℕ → Option ℕ
  | 0, _ => none
  | fuel + 1, s => if mem s ≠ 0 then (strlen mem fuel (s + 1)).map (· + 1) else some 0

/-- `strcmp`, with at most `fuel` bytes looked at. -/
def strcmp (mem : ℕ → UInt8) : ℕ → ℕ → ℕ → Option ℤ
  | 0, _, _ => none
  | fuel + 1, a, b =>
    if mem a ≠ 0 ∧ mem a = mem b then strcmp mem fuel (a + 1) (b + 1)
    else some ((mem a).toNat - (mem b).toNat)

/-- `strncmp`, with `n` rounds of its loop to go. -/
def strncmp (mem : ℕ → UInt8) (a b : ℕ) : ℕ → ℤ
  | 0 => 0
  | n + 1 =>
    if mem a ≠ mem b then (mem a).toNat - (mem b).toNat
    else if mem a = 0 then 0
    else strncmp mem (a + 1) (b + 1) n

/-- `memcpy` -/
def memcpy (mem : ℕ → UInt8) (dest src n : ℕ) : ℕ → UInt8 :=
  forRange 0 n (fun mem i => Function.update mem (dest + i) (mem (src + i))) mem

/-- The loop over blanks in `execute_command`. -/
def skipBlanks (mem : ℕ → UInt8) : ℕ → ℕ → Option ℕ
  | 0, _ => none
  | fuel + 1, line => if mem line = 0x20 then skipBlanks mem fuel (line + 1) else some line

/-- The bytes of an array. -/
def bytesAt (mem : ℕ → UInt8) (p n : ℕ) : List UInt8 := (List.range n).map fun i => mem (p + i)

/-- `execute_command` on memory; `lit` says where the string literals are. The byte loops of
`strlen` and `strcmp` run on it as they stand, and have no result if they do not end within `fuel`
steps. -/
def executeCommandMem (mem : ℕ → UInt8) (lit : List UInt8 → ℕ) (fuel line : ℕ) (s : Sys) :
    Option Sys := do
  let line ← skipBlanks mem fuel line
  if mem line = 0 then
    return s
  let len ← strlen mem fuel line
  let s := { s with rustHistoryCount := s.rustHistoryCount + 1 }.emit
    [.rustHistoryPush (bytesAt mem line len)]
  if (← strcmp mem fuel line (lit (text "help"))) = 0 then return cmdHelp s
  if (← strcmp mem fuel line (lit (text "clear"))) = 0 then return s.emit [.consoleClear]
  if (← strcmp mem fuel line (lit (text "meminfo"))) = 0 then return cmdMeminfo s
  if (← strcmp mem fuel line (lit (text "kbdinfo"))) = 0 then return cmdKbdinfo s
  if (← strcmp mem fuel line (lit (text "ansi"))) = 0 then return cmdAnsi s
  if (← strcmp mem fuel line (lit (text "ttyinfo"))) = 0 then return cmdTtyinfo s
  if (← strcmp mem fuel line (lit (text "health"))) = 0 then return cmdHealth s
  if (← strcmp mem fuel line (lit (text "session"))) = 0 then return cmdSession s
  if (← strcmp mem fuel line (lit (text "selftest"))) = 0 then return cmdSelftest s
  if (← strcmp mem fuel line (lit (text "echo"))) = 0 then return s.emit [.consolePutc 0x0A]
  if strncmp mem line (lit (text "echo ")) 5 = 0 then
    let rest ← strlen mem fuel (line + 5)
    return s.emit [.consoleWrite (bytesAt mem (line + 5) rest), .consolePutc 0x0A]
  return s.emit [say "Unknown command: ", .consoleWrite (bytesAt mem line len), .consolePutc 0x0A]

/-! ## Strings in memory -/

/-- The string at an address, with the NUL that ends it. It is stated byte by byte, since that is
how the loops go through it. -/
def StringAt (mem : ℕ → UInt8) : ℕ → List UInt8 → Prop
  | p, [] => mem p = 0
  | p, byte :: str => byte ≠ 0 ∧ mem p = byte ∧ StringAt mem (p + 1) str

instance decStringAt (mem : ℕ → UInt8) :
    (p : ℕ) → (str : List UInt8) → Decidable (StringAt mem p str)
  | p, [] => inferInstanceAs (Decidable (mem p = 0))
  | p, byte :: str =>
    have := decStringAt mem (p + 1) str
    inferInstanceAs (Decidable (byte ≠ 0 ∧ mem p = byte ∧ StringAt mem (p + 1) str))

variable {mem : ℕ → UInt8} {a b p : ℕ}

theorem StringAt.drop (n : ℕ) : ∀ {p : ℕ} {str : List UInt8}, StringAt mem p str →
    n ≤ str.length → StringAt mem (p + n) (str.drop n) := by
  induction n with
  | zero => exact fun h _ => h
  | succ n ih =>
    intro p str h hn
    cases str with
    | nil => exact absurd hn (Nat.not_succ_le_zero n)
    | cons byte str =>
      have hrest := ih h.2.2 (Nat.le_of_succ_le_succ hn)
      rwa [Nat.add_assoc, Nat.add_comm 1 n] at hrest

theorem strlen_eq (fuel : ℕ) : ∀ {p : ℕ} {str : List UInt8}, StringAt mem p str →
    str.length < fuel → strlen mem fuel p = some str.length := by
  induction fuel with
  | zero => exact fun _ hfuel => absurd hfuel (Nat.not_lt_zero _)
  | succ fuel ih =>
    intro p str h hfuel
    rw [strlen]
    cases str with
    | nil => exact if_neg (not_not.mpr h)
    | cons byte str =>
      obtain ⟨hne, hbyte, h⟩ := h
      rw [if_pos (hbyte.trans_ne hne), ih h (Nat.lt_of_succ_lt_succ hfuel)]
      rfl

theorem bytesAt_eq : ∀ {p : ℕ} {str : List UInt8}, StringAt mem p str →
    bytesAt mem p str.length = str := by
  intro p str
  induction str generalizing p with
  | nil => exact fun _ => rfl
  | cons byte str ih =>
    intro h
    have htail : (fun i => mem (p + i)) ∘ Nat.succ = fun i => mem (p + 1 + i) := by
      funext i
      exact congrArg mem (by rw [Nat.succ_eq_add_one]; omega)
    rw [bytesAt, List.length_cons, List.range_succ_eq_map, List.map_cons, List.map_map, htail]
    exact congrArg₂ List.cons h.2.1 (ih h.2.2)

theorem skipBlanks_eq (fuel : ℕ) : ∀ {p : ℕ} {str : List UInt8}, StringAt mem p str →
    str.length < fuel → ∃ q, skipBlanks mem fuel p = some q ∧
      StringAt mem q (str.dropWhile (· == 0x20)) := by
  induction fuel with
  | zero => exact fun _ hfuel => absurd hfuel (Nat.not_lt_zero _)
  | succ fuel ih =>
    intro p str h hfuel
    rw [skipBlanks]
    cases str with
    | nil =>
      have hblank : mem p ≠ 0x20 := (show mem p = 0 from h).trans_ne (by decide)
      exact ⟨p, if_neg hblank, h⟩
    | cons byte str =>
      by_cases hblank : byte = 0x20
      · have hdrop : (byte :: str).dropWhile (· == 0x20) = str.dropWhile (· == 0x20) :=
          List.dropWhile_cons_of_pos (beq_iff_eq.mpr hblank)
        rw [if_pos (h.2.1.trans hblank), hdrop]
        exact ih h.2.2 (Nat.lt_of_succ_lt_succ hfuel)
      · have hkeep : (byte :: str).dropWhile (· == 0x20) = byte :: str :=
          List.dropWhile_cons_of_neg (mt beq_iff_eq.mp hblank)
        exact ⟨p, if_neg (h.2.1.trans_ne hblank), by rwa [hkeep]⟩

/-! ## Order -/

/-- A number that says how two strings are ordered. -/
def Orders (r : ℤ) (xs ys : List UInt8) : Prop := (r = 0 ↔ xs = ys) ∧ (r < 0 ↔ xs < ys)

theorem Orders.cons {r : ℤ} {xs ys : List UInt8} (h : Orders r xs ys) (byte : UInt8) :
    Orders r (byte :: xs) (byte :: ys) := by
  refine ⟨h.1.trans (List.cons_inj_right byte).symm, h.2.trans ?_⟩
  rw [List.cons_lt_cons_iff]
  exact ⟨fun hlt => Or.inr ⟨rfl, hlt⟩, fun hlt =>
    hlt.elim (fun hself => absurd hself (UInt8.lt_irrefl byte)) And.right⟩

/-- The first bytes decide. -/
theorem orders_of_ne {x y : UInt8} (hne : x ≠ y) (xs ys : List UInt8) :
    Orders ((x.toNat : ℤ) - y.toNat) (x :: xs) (y :: ys) := by
  have hnat : x.toNat ≠ y.toNat := fun h => hne (UInt8.toNat_inj.mp h)
  constructor
  · refine ⟨fun h => absurd (by omega) hnat, fun h => absurd (List.cons.inj h).1 hne⟩
  · rw [List.cons_lt_cons_iff, UInt8.lt_iff_toNat_lt]
    constructor
    · intro h
      exact Or.inl (by omega)
    · rintro (h | ⟨h, _⟩)
      · omega
      · exact absurd h hne

theorem orders_nil : Orders 0 [] [] :=
  ⟨⟨fun _ => rfl, fun _ => rfl⟩, fun h => absurd h (by decide),
    fun h => absurd h (List.lt_irrefl [])⟩

/-- A string that ends is the smaller one. -/
theorem orders_nil_cons {y : UInt8} (hy : y ≠ 0) (ys : List UInt8) :
    Orders ((0 : UInt8).toNat - y.toNat) [] (y :: ys) := by
  have hpos : y.toNat ≠ 0 := fun h => hy (UInt8.toNat_inj.mp h)
  have hneg : (((0 : UInt8).toNat : ℤ) - y.toNat) < 0 := by
    show ((0 : ℕ) : ℤ) - y.toNat < 0
    omega
  exact ⟨⟨fun h => absurd h (Int.ne_of_lt hneg), fun h => absurd h (List.cons_ne_nil y ys).symm⟩,
    fun _ => List.nil_lt_cons y ys, fun _ => hneg⟩

theorem orders_cons_nil {x : UInt8} (hx : x ≠ 0) (xs : List UInt8) :
    Orders (x.toNat - (0 : UInt8).toNat) (x :: xs) [] := by
  have hnat : x.toNat ≠ 0 := fun h => hx (UInt8.toNat_inj.mp h)
  have hpos : 0 < ((x.toNat : ℤ) - (0 : UInt8).toNat) := by
    show 0 < (x.toNat : ℤ) - (0 : ℕ)
    omega
  exact ⟨⟨fun h => absurd h (Int.ne_of_gt hpos), fun h => absurd h (List.cons_ne_nil x xs)⟩,
    fun h => absurd h (Int.not_lt.mpr hpos.le), fun h => absurd h (List.not_lt_nil (x :: xs))⟩

/-- **`strcmp` orders strings as lists of bytes**, and needs no byte behind them. -/
theorem strcmp_orders (fuel : ℕ) : ∀ {a b : ℕ} {xs ys : List UInt8}, StringAt mem a xs →
    StringAt mem b ys → xs.length < fuel → ∃ r, strcmp mem fuel a b = some r ∧ Orders r xs ys := by
  induction fuel with
  | zero => exact fun _ _ hfuel => absurd hfuel (Nat.not_lt_zero _)
  | succ fuel ih =>
    intro a b xs ys hx hy hfuel
    rw [strcmp]
    cases xs with
    | nil =>
      have hend : mem a = 0 := hx
      rw [if_neg fun h => h.1 hend, hend]
      cases ys with
      | nil =>
        have hend' : mem b = 0 := hy
        rw [hend']
        exact ⟨0, rfl, orders_nil⟩
      | cons y ys =>
        rw [hy.2.1]
        exact ⟨_, rfl, orders_nil_cons hy.1 ys⟩
    | cons x xs =>
      obtain ⟨hxne, hxa, hx⟩ := hx
      rw [hxa]
      cases ys with
      | nil =>
        have hend : mem b = 0 := hy
        rw [hend, if_neg fun h => hxne h.2]
        exact ⟨_, rfl, orders_cons_nil hxne xs⟩
      | cons y ys =>
        obtain ⟨_, hyb, hy⟩ := hy
        rw [hyb]
        by_cases hsame : x = y
        · rw [if_pos ⟨hxne, hsame⟩]
          obtain ⟨r, hr, h⟩ := ih hx hy (Nat.lt_of_succ_lt_succ hfuel)
          exact ⟨r, hr, hsame ▸ h.cons x⟩
        · rw [if_neg fun h => hsame h.2]
          exact ⟨_, rfl, orders_of_ne hsame xs ys⟩

/-- **`strncmp` orders their first `n` bytes.** The loop ends at the first difference, at the end
of both, or after `n` bytes, and the last case looks at no further byte. -/
theorem strncmp_orders (n : ℕ) : ∀ {a b : ℕ} {xs ys : List UInt8}, StringAt mem a xs →
    StringAt mem b ys → Orders (strncmp mem a b n) (xs.take n) (ys.take n) := by
  induction n with
  | zero => exact fun _ _ => orders_nil
  | succ n ih =>
    intro a b xs ys hx hy
    rw [strncmp]
    cases xs with
    | nil =>
      have hend : mem a = 0 := hx
      rw [hend]
      cases ys with
      | nil =>
        have hend' : mem b = 0 := hy
        rw [hend', if_neg (not_not.mpr rfl), if_pos rfl]
        exact orders_nil
      | cons y ys =>
        rw [hy.2.1, if_pos hy.1.symm]
        exact orders_nil_cons hy.1 _
    | cons x xs =>
      obtain ⟨hxne, hxa, hx⟩ := hx
      rw [hxa]
      cases ys with
      | nil =>
        have hend : mem b = 0 := hy
        rw [hend, if_pos hxne]
        exact orders_cons_nil hxne _
      | cons y ys =>
        obtain ⟨_, hyb, hy⟩ := hy
        rw [hyb]
        by_cases hsame : x = y
        · rw [if_neg (not_not.mpr hsame), if_neg hxne]
          exact hsame ▸ (ih hx hy).cons x
        · rw [if_pos hsame]
          exact orders_of_ne hsame _ _

/-! ## Copying -/

/-- Where the byte comes from that `memcpy` puts at `dest + i`. -/
def copiedFrom (dest src i : ℕ) : ℕ := src + if src < dest then i % (dest - src) else i

/-- **What `memcpy` leaves in memory.** Where the destination overlaps the source from behind, the
bytes between the two starts are repeated. -/
theorem memcpy_repeats (mem : ℕ → UInt8) (dest src n : ℕ) :
    ∀ p, memcpy mem dest src n p =
      if dest ≤ p ∧ p < dest + n then mem (copiedFrom dest src (p - dest)) else mem p := by
  rw [memcpy]
  refine forRange_rule (fun k (m : ℕ → UInt8) => ∀ p, m p =
    if dest ≤ p ∧ p < dest + k then mem (copiedFrom dest src (p - dest)) else mem p)
    (Nat.zero_le n) (fun p => ?_) fun k m _ _ h p => ?_
  · rw [if_neg (by omega)]
  · have hsource : m (src + k) = mem (copiedFrom dest src k) := by
      rw [h (src + k), copiedFrom, copiedFrom]
      by_cases hbehind : src < dest
      · rw [if_pos hbehind, if_pos hbehind]
        split
        · -- the byte was itself copied, a period before
          rename_i hcopied
          have hk : dest - src ≤ k := by omega
          rw [show src + k - dest = k - (dest - src) by omega, ← Nat.mod_eq_sub_mod hk]
        · rw [Nat.mod_eq_of_lt (by omega)]
      · rw [if_neg hbehind, if_neg hbehind, if_neg (by omega)]
    rw [Function.update_apply]
    by_cases hp : p = dest + k
    · rw [if_pos hp, hsource, hp, if_pos (by omega), Nat.add_sub_cancel_left]
    · rw [if_neg hp, h p]
      have hrange : (dest ≤ p ∧ p < dest + k) ↔ (dest ≤ p ∧ p < dest + (k + 1)) := by omega
      simp only [hrange]

/-- It copies every array of `n` bytes exactly if the destination does not start inside the
source. It goes from the front to the back, and would overwrite there what it has still to read.
-/
theorem memcpy_copies_iff (dest src n : ℕ) :
    (∀ (mem : ℕ → UInt8) (i : ℕ), i < n → memcpy mem dest src n (dest + i) = mem (src + i)) ↔
      dest ≤ src ∨ src + n ≤ dest := by
  have hput (mem : ℕ → UInt8) {i : ℕ} (hi : i < n) :
      memcpy mem dest src n (dest + i) = mem (copiedFrom dest src i) := by
    rw [memcpy_repeats, if_pos (by omega), Nat.add_sub_cancel_left]
  constructor
  · intro h
    by_contra hinside
    -- a byte that differs from all others, just behind the start of the destination
    have hi : dest - src < n := by omega
    have hfrom : copiedFrom dest src (dest - src) = src := by
      rw [copiedFrom, if_pos (by omega), Nat.mod_self, Nat.add_zero]
    have hcopy := h (fun p => if p = dest then 1 else 0) (dest - src) hi
    rw [hput _ hi, hfrom, if_neg (by omega), if_pos (by omega)] at hcopy
    exact absurd hcopy (by decide)
  · intro h mem i hi
    rw [hput mem hi, copiedFrom]
    split
    · rw [Nat.mod_eq_of_lt (by omega)]
    · rfl

/-! ## Commands -/

/-- The names that `execute_command` compares with. -/
def commandNames : List String :=
  ["help", "clear", "meminfo", "kbdinfo", "ansi", "ttyinfo", "health", "session", "selftest",
    "echo", "echo "]

/-- The literals are where `lit` says. The compiler may put them anywhere, and let one be the end
of another. -/
def LiteralsAt (mem : ℕ → UInt8) (lit : List UInt8 → ℕ) : Prop :=
  ∀ name ∈ commandNames, StringAt mem (lit (text name)) (text name)

instance (mem : ℕ → UInt8) (lit : List UInt8 → ℕ) : Decidable (LiteralsAt mem lit) :=
  inferInstanceAs (Decidable (∀ name ∈ commandNames, _))

/-- **On memory the shell does what it does on bytes**: if the line and the literals are strings
there, and a loop may look at every byte of the line. -/
theorem executeCommandMem_eq {lit : List UInt8 → ℕ} (hlit : LiteralsAt mem lit) {fuel p : ℕ}
    {str : List UInt8} (hstr : StringAt mem p str) (hfuel : str.length < fuel) (s : Sys) :
    executeCommandMem mem lit fuel p s = some (executeCommand s str) := by
  obtain ⟨q, hskip, hq⟩ := skipBlanks_eq fuel hstr hfuel
  have hshort : (str.dropWhile (· == 0x20)).length < fuel :=
    Nat.lt_of_le_of_lt (List.dropWhile_suffix _).length_le hfuel
  rw [executeCommandMem, executeCommand, hskip]
  generalize str.dropWhile (· == 0x20) = rest at hq hshort
  show (if mem q = 0 then some s else _) = _
  by_cases hblank : rest = []
  · rw [hblank] at hq
    rw [if_pos (show mem q = 0 from hq), if_pos hblank]
  have hnonzero : mem q ≠ 0 := by
    cases rest with
    | nil => exact absurd rfl hblank
    | cons byte rest => exact hq.2.1.trans_ne hq.1
  rw [if_neg hnonzero, if_neg hblank, strlen_eq fuel hq hshort]
  show (strcmp mem fuel q (lit (text "help")) >>= _) = _
  rw [bytesAt_eq hq]
  -- one comparison
  have hstep (name : String) (hname : name ∈ commandNames) {x y : Sys} {cont : Option Sys}
      (hcont : rest ≠ text name → cont = some y) :
      (strcmp mem fuel q (lit (text name)) >>= fun r => if r = 0 then pure x else cont) =
        some (if rest = text name then x else y) := by
    obtain ⟨r, hr, horder⟩ := strcmp_orders fuel hq (hlit name hname) hshort
    rw [hr]
    show (if r = 0 then some x else cont) = _
    by_cases hsame : rest = text name
    · rw [if_pos (horder.1.mpr hsame), if_pos hsame]
    · rw [if_neg (mt horder.1.mp hsame), if_neg hsame, hcont hsame]
  refine hstep "help" (by simp [commandNames]) fun _ => ?_
  refine hstep "clear" (by simp [commandNames]) fun _ => ?_
  refine hstep "meminfo" (by simp [commandNames]) fun _ => ?_
  refine hstep "kbdinfo" (by simp [commandNames]) fun _ => ?_
  refine hstep "ansi" (by simp [commandNames]) fun _ => ?_
  refine hstep "ttyinfo" (by simp [commandNames]) fun _ => ?_
  refine hstep "health" (by simp [commandNames]) fun _ => ?_
  refine hstep "session" (by simp [commandNames]) fun _ => ?_
  refine hstep "selftest" (by simp [commandNames]) fun _ => ?_
  refine hstep "echo" (by simp [commandNames]) fun _ => ?_
  have horder := strncmp_orders 5 hq (hlit "echo " (by simp [commandNames]))
  have hword : (text "echo ").take 5 = text "echo " := by rfl
  rw [hword] at horder
  by_cases hecho : rest.take 5 = text "echo "
  · have hlen : 5 ≤ rest.length := by
      have htake := congrArg List.length hecho
      rw [List.length_take] at htake
      have hfive : (text "echo ").length = 5 := by rfl
      omega
    have hargument := hq.drop 5 hlen
    rw [if_pos (horder.1.mpr hecho), if_pos hecho,
      strlen_eq fuel hargument (by rw [List.length_drop]; omega)]
    show some _ = _
    rw [bytesAt_eq hargument]
  · rw [if_neg (mt horder.1.mp hecho), if_neg hecho]
    rfl

/-- The literals sixteen bytes apart, and a line behind them. -/
def literalMemory (p : ℕ) : UInt8 :=
  (text ((commandNames ++ ["  echo hi"]).getD (p / 16) "")).getD (p % 16) 0

theorem executeCommandMem_eq_echo :
    executeCommandMem literalMemory (fun t => 16 * (commandNames.map text).idxOf t) 10 176 sysZero =
      some (executeCommand sysZero (text "  echo hi")) :=
  executeCommandMem_eq (by decide) (by decide) (by decide) sysZero

end WaluOs
