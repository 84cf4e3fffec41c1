import WaluOs.ConsoleSteady
import WaluOs.KernelMain

/-!
# The serial log

Everything that is printed also goes to the serial port, with a carriage return in front of
each newline. The log is therefore not the text, but it determines it: a carriage return
directly before a newline is one that was added, also where the text itself has one
(`serialLog_replays`).

`panic_exception` prints numbers between fixed words. The last thing in a log, it can be read
back: there is one exception that it is the message of (`panicLog_unique`).
-/

namespace WaluOs

variable {a b c : Console}

/-! ## Carriage returns -/

/-- What `console_putc` sends for a byte. -/
def serialBytes (byte : UInt8) : List UInt8 := if byte = 0x0A then [0x0D, 0x0A] else [byte]

/-- What is sent for a text. -/
def crlf (str : List UInt8) : List UInt8 := str.flatMap serialBytes

/-- Leave out each carriage return directly before a newline. It undoes what the port does to a
text, which puts one there. -/
def uncrlf : List UInt8 → List UInt8
  | [] => []
  | byte :: rest =>
    if byte = 0x0D ∧ rest.head? = some 0x0A then uncrlf rest else byte :: uncrlf rest

theorem crlf_append (xs ys : List UInt8) : crlf (xs ++ ys) = crlf xs ++ crlf ys :=
  List.flatMap_append

/-- A newline comes with a carriage return. -/
theorem crlf_head (str : List UInt8) : (crlf str).head? ≠ some 0x0A := by
  cases str with
  | nil => exact nofun
  | cons byte rest =>
    rw [crlf, List.flatMap_cons, serialBytes]
    split
    · exact fun h => absurd (Option.some.inj h) (by decide)
    · rename_i hbyte
      exact fun h => hbyte (Option.some.inj h)

/-- The text can be read back. -/
theorem uncrlf_crlf (str : List UInt8) : uncrlf (crlf str) = str := by
  induction str with
  | nil => rfl
  | cons byte rest ih =>
    have hcons : crlf (byte :: rest) = serialBytes byte ++ crlf rest := List.flatMap_cons
    have hkeep : ¬(byte = 0x0D ∧ (crlf rest).head? = some 0x0A) := fun h => crlf_head rest h.2
    rw [hcons, serialBytes]
    split
    · rename_i hnewline
      have hlf : ¬((0x0A : UInt8) = 0x0D ∧ (crlf rest).head? = some 0x0A) :=
        fun h => crlf_head rest h.2
      rw [List.cons_append, List.singleton_append, uncrlf, if_pos ⟨rfl, rfl⟩, uncrlf, if_neg hlf,
        ih, hnewline]
    · rw [List.singleton_append, uncrlf, if_neg hkeep, ih]

theorem crlf_injective {xs ys : List UInt8} (h : crlf xs = crlf ys) : xs = ys := by
  rw [← uncrlf_crlf xs, h, uncrlf_crlf]

/-- Only carriage returns are new. -/
theorem mem_crlf {byte : UInt8} (hcr : byte ≠ 0x0D) {str : List UInt8} :
    byte ∈ crlf str → byte ∈ str := by
  intro h
  obtain ⟨x, hx, hbyte⟩ := List.mem_flatMap.mp h
  rw [serialBytes] at hbyte
  split at hbyte
  · rename_i hnewline
    rcases List.mem_cons.mp hbyte with rfl | hbyte
    · exact absurd rfl hcr
    · rwa [List.mem_singleton.mp hbyte, ← hnewline]
  · rwa [List.mem_singleton.mp hbyte]

/-! ## Numbers in the log -/

/-- A hexadecimal digit of `console_write_hex`. -/
def hexDigitByte (d : ℕ) : UInt8 :=
  let nibble := UInt8.ofNat d
  if nibble < 10 then 0x30 + nibble else 0x41 + nibble - 10

/-- What `console_write_hex` prints. -/
def hexText (value : UInt64) : List UInt8 :=
  [0x30, 0x78] ++ (List.range 16).map fun i => hexDigitByte (value.toNat / 16 ^ (15 - i) % 16)

theorem hexDigitByte_injective :
    ∀ d < 16, ∀ e < 16, hexDigitByte d = hexDigitByte e → d = e := by decide

/-- Two numbers with the same digits. -/
theorem eq_of_digits {base : ℕ} (n : ℕ) :
    ∀ {v w : ℕ}, v < base ^ n → w < base ^ n →
      (∀ k < n, v / base ^ k % base = w / base ^ k % base) → v = w := by
  induction n with
  | zero =>
    intro v w hv hw _
    rw [pow_zero, Nat.lt_one_iff] at hv hw
    rw [hv, hw]
  | succ n ih =>
    intro v w hv hw hdigits
    have hlast := hdigits 0 n.succ_pos
    rw [pow_zero, Nat.div_one, Nat.div_one] at hlast
    have hfront : v / base = w / base := by
      rw [pow_succ'] at hv hw
      refine ih (Nat.div_lt_of_lt_mul hv) (Nat.div_lt_of_lt_mul hw) fun k hk => ?_
      have hnext := hdigits (k + 1) (Nat.succ_lt_succ hk)
      rwa [pow_succ', ← Nat.div_div_eq_div_mul, ← Nat.div_div_eq_div_mul] at hnext
    rw [← Nat.div_add_mod v base, hfront, hlast, Nat.div_add_mod]

theorem hexText_injective {v w : UInt64} (h : hexText v = hexText w) : v = w := by
  have hmap := List.map_inj_left.mp (List.append_cancel_left h)
  refine UInt64.toNat_inj.mp (@eq_of_digits 16 16 _ _ v.toNat_lt w.toNat_lt fun k hk => ?_)
  have hdigit := hmap (15 - k) (List.mem_range.mpr (by omega))
  rw [Nat.sub_sub_self (Nat.le_of_lt_succ hk)] at hdigit
  exact hexDigitByte_injective _ (Nat.mod_lt _ (by decide)) _ (Nat.mod_lt _ (by decide)) hdigit

theorem hexText_length (value : UInt64) : (hexText value).length = 18 := by
  rw [hexText, List.length_append, List.length_map, List.length_range]
  rfl

/-- What a call prints; an erase prints nothing. A number is printed as a numeral, and calls of
other modules print through calls of their own. -/
def Call.text : Call → List UInt8
  | .consolePutc byte => [byte]
  | .consoleWrite bytes => bytes
  | .consoleWriteDec value => numeral value.toNat
  | .consoleWriteHex value => hexText value
  | .consoleBackspace => []
  | .consoleClear => []
  | .rustHistoryPush _ => []
  | .executeCommand _ => []

/-- A call that erases. It changes the screen and sends nothing, so the log does not show it. -/
def Call.Erases (call : Call) : Prop := call = .consoleBackspace ∨ call = .consoleClear

theorem consoleWriteDec_numeral (c : Console) (value : UInt64) :
    consoleWriteDec c value = consoleWrite c (numeral value.toNat) := by
  have hfill := decFill_digits decBufSize [] value (digits_length_le value)
  rw [consoleWriteDec, numeral]
  split
  · rename_i hzero
    rw [hzero]
    rfl
  · rename_i hvalue
    have hne : value.toNat ≠ 0 := fun h => hvalue (UInt64.toNat_inj.mp h)
    rw [if_neg hne, hfill, consoleWrite, List.foldl_reverse]
    rfl

theorem consoleWriteHex_hexText (c : Console) (value : UInt64) :
    consoleWriteHex c value = consoleWrite c (hexText value) := by
  rw [consoleWriteHex, consoleWrite, hexText, List.foldl_append, List.foldl_map]
  rfl

/-- A call that erases nothing prints its text and does no more. -/
theorem playCall_text (c : Console) {call : Call} (h : ¬call.Erases) :
    playCall c call = consoleWrite c call.text := by
  cases call with
  | consolePutc _ => rfl
  | consoleWrite _ => rfl
  | consoleWriteDec value => exact consoleWriteDec_numeral c value
  | consoleWriteHex value => exact consoleWriteHex_hexText c value
  | consoleBackspace => exact absurd (Or.inl rfl) h
  | consoleClear => exact absurd (Or.inr rfl) h
  | rustHistoryPush _ => rfl
  | executeCommand _ => rfl

/-! ## The log -/

/-- The port is in use, and `str` has gone out between `a` and `b`, with a carriage return before
each newline and nothing else. -/
structure Sends (a b : Console) (str : List UInt8) : Prop where
  initialized : b.serialInitialized = true
  serial : b.serial = a.serial ++ crlf str

namespace Sends

theorem refl (h : a.serialInitialized = true) : Sends a a [] := ⟨h, (List.append_nil _).symm⟩

theorem trans {xs ys : List UInt8} (h : Sends a b xs) (h' : Sends b c ys) : Sends a c (xs ++ ys) :=
  ⟨h'.initialized, by rw [h'.serial, h.serial, crlf_append, List.append_assoc]⟩

/-- What leaves the port alone. -/
theorem steady {keep : Prop} {xs : List UInt8} (h : Sends a b xs) (h' : Steady keep b c) :
    Sends a c xs :=
  ⟨h'.initialized.trans h.initialized, h'.serial.trans h.serial⟩

/-- The text of a log. -/
theorem decodes {xs : List UInt8} (h : Sends a b xs) :
    uncrlf (b.serial.drop a.serial.length) = xs := by
  rw [h.serial, List.drop_left, uncrlf_crlf]

end Sends

theorem serialWriteChar_sends (h : c.serialInitialized = true) (byte : UInt8) :
    (serialWriteChar c byte).serialInitialized = true ∧
      (serialWriteChar c byte).serial = c.serial ++ [byte] := by
  rw [serialWriteChar, if_pos h]
  exact ⟨h, rfl⟩

theorem consolePutc_sends (h : c.serialInitialized = true) (byte : UInt8) :
    Sends c (consolePutc c byte) [byte] := by
  have hsent : Sends c (serialWriteChar (if byte = 0x0A then serialWriteChar c 0x0D else c) byte)
      [byte] := by
    have hcrlf : crlf [byte] = serialBytes byte := List.flatMap_singleton ..
    by_cases hnewline : byte = 0x0A
    · obtain ⟨hcr, hcrSent⟩ := serialWriteChar_sends h 0x0D
      obtain ⟨hlf, hlfSent⟩ := serialWriteChar_sends hcr byte
      rw [if_pos hnewline]
      refine ⟨hlf, ?_⟩
      rw [hlfSent, hcrSent, hcrlf, serialBytes, if_pos hnewline, hnewline, List.append_assoc]
      rfl
    · rw [if_neg hnewline]
      refine ⟨(serialWriteChar_sends h byte).1, ?_⟩
      rw [(serialWriteChar_sends h byte).2, hcrlf, serialBytes, if_neg hnewline]
  rw [consolePutc]
  generalize serialWriteChar (if byte = 0x0A then serialWriteChar c 0x0D else c) byte = s at hsent
  split
  · exact hsent.steady (@consoleHandleGroundByte_steady True s byte)
  · split
    · exact hsent.steady ((@Steady.refl True s).update fun _ => ⟨rfl, rfl⟩)
    · exact hsent.steady (((@Steady.refl True s).update fun _ => ⟨rfl, rfl⟩).trans
        (consoleHandleGroundByte_steady _ byte))
  · exact hsent.steady (consoleHandleCsiByte_steady s byte)

theorem consoleWrite_sends (str : List UInt8) :
    ∀ {c : Console}, c.serialInitialized = true → Sends c (consoleWrite c str) str := by
  induction str with
  | nil => exact fun h => Sends.refl h
  | cons byte str ih =>
    intro c h
    have hput := consolePutc_sends h byte
    exact hput.trans (ih hput.initialized)

theorem playCall_sends (h : c.serialInitialized = true) (call : Call) :
    Sends c (playCall c call) call.text := by
  by_cases herases : call.Erases
  · rcases herases with rfl | rfl
    · exact (Sends.refl h).steady (@consoleBackspace_steady True c)
    · exact (Sends.refl h).steady (consoleClear_steady c)
  · rw [playCall_text c herases]
    exact consoleWrite_sends call.text h

theorem playCalls_sends (calls : List Call) :
    ∀ {c : Console}, c.serialInitialized = true →
      Sends c (calls.foldl playCall c) (calls.flatMap Call.text) := by
  induction calls with
  | nil => exact fun h => Sends.refl h
  | cons call calls ih =>
    intro c h
    have hcall := playCall_sends h call
    rw [List.flatMap_cons]
    exact hcall.trans (ih hcall.initialized)

/-- What `panic_exception` prints. -/
def panicText (vector errorCode : UInt64) (hasErrorCode : Bool) (cr2 : UInt64) : List UInt8 :=
  (panicException vector errorCode hasErrorCode cr2).flatMap Call.text

/-- What it prints behind the vector. -/
def panicDetails (vector errorCode : UInt64) (hasErrorCode : Bool) (cr2 : UInt64) : List UInt8 :=
  (if hasErrorCode then text " error=" ++ hexText errorCode else []) ++
    (if vector = 14 then text " cr2=" ++ hexText cr2 else []) ++ text "\nSystem halted.\n"

section

variable {vector vector' errorCode errorCode' cr2 cr2' : UInt64} {hasErrorCode hasErrorCode' : Bool}

/-- There is one bracket `[` in it, the second byte. -/
theorem panicText_eq : panicText vector errorCode hasErrorCode cr2 =
    [0x0A] ++ 0x5B :: (text "KERNEL PANIC] CPU exception " ++ (numeral vector.toNat ++
      panicDetails vector errorCode hasErrorCode cr2)) := by
  rw [panicText, panicException, panicDetails]
  simp only [List.flatMap_append]
  cases hasErrorCode <;> by_cases hv : vector = 14 <;> simp only [hv, if_true, if_false] <;>
    simp only [List.flatMap_cons, List.flatMap_nil, Call.text, List.append_nil,
      List.append_assoc] <;> rfl

theorem hexText_bracket (value : UInt64) : 0x5B ∉ hexText value := by
  have hdigit : ∀ d < 16, hexDigitByte d ≠ 0x5B := by decide
  intro h
  rcases List.mem_append.mp h with h | h
  · exact absurd h (by decide)
  · obtain ⟨i, _, hi⟩ := List.mem_map.mp h
    exact hdigit _ (Nat.mod_lt _ (by decide)) hi

theorem numeral_bracket (v : ℕ) : 0x5B ∉ numeral v := fun h =>
  absurd ((numeral_isNumeral v).digits _ h) (by decide)

theorem panicDetails_bracket : 0x5B ∉ panicDetails vector errorCode hasErrorCode cr2 := by
  have herror : 0x5B ∉ text " error=" ++ hexText errorCode := fun h =>
    (List.mem_append.mp h).elim (by decide) (hexText_bracket _)
  have hcr2 : 0x5B ∉ text " cr2=" ++ hexText cr2 := fun h =>
    (List.mem_append.mp h).elim (by decide) (hexText_bracket _)
  have hend : 0x5B ∉ text "\nSystem halted.\n" := by decide
  rw [panicDetails, List.mem_append, List.mem_append]
  rintro ((h | h) | h)
  · split at h
    · exact herror h
    · exact List.not_mem_nil h
  · split at h
    · exact hcr2 h
    · exact List.not_mem_nil h
  · exact hend h

/-- Its first bytes tell what follows. -/
theorem panicDetails_second : (panicDetails vector errorCode hasErrorCode cr2)[1]? =
    some (if hasErrorCode then 0x65 else if vector = 14 then 0x63 else 0x53) := by
  rw [panicDetails]
  cases hasErrorCode
  · by_cases hv : vector = 14
    · simp only [hv, if_true]
      rfl
    · simp only [hv, if_false]
      rfl
  · rfl

/-- No digit follows the number. -/
theorem panicDetails_head :
    ∃ byte rest, panicDetails vector errorCode hasErrorCode cr2 = byte :: rest ∧ ¬IsDigit byte := by
  rw [panicDetails]
  cases hasErrorCode
  · by_cases hv : vector = 14
    · exact ⟨0x20, _, by simp only [hv, if_true]; rfl, by decide⟩
    · exact ⟨0x0A, _, by simp only [hv, if_false]; rfl, by decide⟩
  · exact ⟨0x20, _, rfl, by decide⟩

/-- The number in front of something that is not a digit. -/
theorem numeral_append_inj {v w : ℕ} {x y : UInt8} {xs ys : List UInt8} (hx : ¬IsDigit x)
    (hy : ¬IsDigit y) (h : numeral v ++ x :: xs = numeral w ++ y :: ys) :
    v = w ∧ x :: xs = y :: ys := by
  have hspan (u : ℕ) {z : UInt8} (hz : ¬IsDigit z) (zs : List UInt8) :
      (numeral u ++ z :: zs).takeWhile (fun b => decide (IsDigit b)) = numeral u := by
    rw [List.takeWhile_append_of_pos fun b hb =>
        decide_eq_true ((numeral_isNumeral u).digits b hb),
      List.takeWhile_cons_of_neg (by rwa [decide_eq_true_eq]), List.append_nil]
  have hnumeral : numeral v = numeral w := by rw [← hspan v hx xs, h, hspan w hy ys]
  rw [hnumeral] at h
  refine ⟨?_, List.append_cancel_left h⟩
  rw [← (numeral_isNumeral v).value, hnumeral, (numeral_isNumeral w).value]

theorem word_hexText_inj {word xs ys : List UInt8} {v w : UInt64}
    (h : (word ++ hexText v) ++ xs = (word ++ hexText w) ++ ys) : v = w ∧ xs = ys := by
  rw [List.append_assoc, List.append_assoc] at h
  obtain ⟨hhex, hrest⟩ := List.append_inj (List.append_cancel_left h)
    ((hexText_length v).trans (hexText_length w).symm)
  exact ⟨hexText_injective hhex, hrest⟩

theorem panicDetails_inj (h : panicDetails vector errorCode hasErrorCode cr2 =
      panicDetails vector errorCode' hasErrorCode' cr2') :
    hasErrorCode = hasErrorCode' ∧ (hasErrorCode = true → errorCode = errorCode') ∧
      (vector = 14 → cr2 = cr2') := by
  have hsame : hasErrorCode = hasErrorCode' := by
    have hsecond := @panicDetails_second vector errorCode cr2 hasErrorCode
    rw [h, panicDetails_second] at hsecond
    have hbyte := Option.some.inj hsecond
    cases hasErrorCode <;> cases hasErrorCode' <;> by_cases hv : vector = 14 <;>
      simp only [hv, if_true, if_false] at hbyte <;> first | rfl | exact absurd hbyte (by decide)
  subst hsame
  have hcr2 (hrest : (if vector = 14 then text " cr2=" ++ hexText cr2 else []) =
      if vector = 14 then text " cr2=" ++ hexText cr2' else []) : vector = 14 → cr2 = cr2' := by
    intro hv
    rw [if_pos hv, if_pos hv] at hrest
    exact hexText_injective (List.append_cancel_left hrest)
  have hwords := List.append_cancel_right h
  cases hasErrorCode
  · exact ⟨rfl, fun hfalse => absurd hfalse (by decide), hcr2 hwords⟩
  · obtain ⟨herror, hrest⟩ := word_hexText_inj hwords
    exact ⟨rfl, fun _ => herror, hcr2 hrest⟩

/-- The last place where a byte occurs. -/
theorem last_occurrence {x : UInt8} {pre pre' post post' : List UInt8} (hx : x ∉ post)
    (hx' : x ∉ post') (h : pre ++ x :: post = pre' ++ x :: post') : post = post' := by
  have hshort {xs ys zs : List UInt8} (hys : x ∉ ys) (h : x :: ys = xs ++ x :: zs) : ys = zs := by
    cases xs with
    | nil => exact (List.cons.inj h).2
    | cons y xs =>
      refine absurd ?_ hys
      rw [(List.cons.inj h).2]
      exact List.mem_append_right _ List.mem_cons_self
  rcases List.append_eq_append_iff.mp h with ⟨xs, _, hrest⟩ | ⟨xs, _, hrest⟩
  · exact hshort hx hrest
  · exact (hshort hx' hrest).symm

/-- **A log that ends with the message of an exception has it from one exception only**, whatever
was printed before: the vector, the error code if there is one, and the address of a page fault
can be read back. -/
theorem panicLog_unique (hport : a.serialInitialized = true) (hport' : b.serialInitialized = true)
    (hlog : ((panicException vector errorCode hasErrorCode cr2).foldl playCall a).serial =
      ((panicException vector' errorCode' hasErrorCode' cr2').foldl playCall b).serial) :
    vector = vector' ∧ hasErrorCode = hasErrorCode' ∧
      (hasErrorCode = true → errorCode = errorCode') ∧ (vector = 14 → cr2 = cr2') := by
  have hsent {c : Console} (h : c.serialInitialized = true) (v e : UInt64) (he : Bool)
      (x : UInt64) : ((panicException v e he x).foldl playCall c).serial =
        (c.serial ++ [0x0D, 0x0A]) ++ 0x5B :: crlf (text "KERNEL PANIC] CPU exception " ++
          (numeral v.toNat ++ panicDetails v e he x)) := by
    have htext : crlf (panicText v e he x) = [0x0D, 0x0A] ++ 0x5B ::
        crlf (text "KERNEL PANIC] CPU exception " ++ (numeral v.toNat ++
          panicDetails v e he x)) := by
      rw [panicText_eq]
      rfl
    rw [(playCalls_sends _ h).serial, List.append_assoc, ← htext, panicText]
  have hbracket (v e : UInt64) (he : Bool) (x : UInt64) :
      0x5B ∉ crlf (text "KERNEL PANIC] CPU exception " ++ (numeral v.toNat ++
        panicDetails v e he x)) := by
    intro h
    rcases List.mem_append.mp (mem_crlf (by decide) h) with h | h
    · exact absurd h (by decide)
    · exact (List.mem_append.mp h).elim (numeral_bracket _) panicDetails_bracket
  rw [hsent hport, hsent hport'] at hlog
  have hmessage := List.append_cancel_left
    (crlf_injective (last_occurrence (hbracket _ _ _ _) (hbracket _ _ _ _) hlog))
  obtain ⟨x, xs, hdetails, hx⟩ := @panicDetails_head vector errorCode cr2 hasErrorCode
  obtain ⟨y, ys, hdetails', hy⟩ := @panicDetails_head vector' errorCode' cr2' hasErrorCode'
  rw [hdetails, hdetails'] at hmessage
  obtain ⟨hvector, hrest⟩ := numeral_append_inj hx hy hmessage
  obtain rfl := UInt64.toNat_inj.mp hvector
  rw [← hdetails, ← hdetails'] at hrest
  exact ⟨rfl, panicDetails_inj hrest⟩

end

/-- Two consoles, one of them cleared, and the word that both have printed. -/
def clearedConsole : Console :=
  consoleClear (consoleWrite { idleConsole vgaText with serialInitialized := true } (text "boot"))

/-- The other one. -/
def fbConsole : Console :=
  consoleWrite { idleConsole fb640x400.geometry with serialInitialized := true } (text "boot")

theorem clearedConsole_sends :
    Sends { idleConsole vgaText with serialInitialized := true } clearedConsole (text "boot") :=
  (consoleWrite_sends (text "boot") rfl).steady (consoleClear_steady _)

theorem fbConsole_sends :
    Sends { idleConsole fb640x400.geometry with serialInitialized := true } fbConsole
      (text "boot") :=
  consoleWrite_sends (text "boot") rfl

/-- A page fault leaves the same log on both, and one at another address leaves another log. -/
theorem panicLog_unique_pageFault :
    let log := fun (c : Console) (cr2 : UInt64) =>
      ((panicException 14 2 true cr2).foldl playCall c).serial
    log clearedConsole 0xB8000 = log fbConsole 0xB8000 ∧
      ((14 : UInt64) = 14 ∧ true = true ∧ (true = true → (2 : UInt64) = 2) ∧
        ((14 : UInt64) = 14 → (0xB8000 : UInt64) = 0xB8000)) ∧
      log clearedConsole 0xB8000 ≠ log fbConsole 0xC0000 := by
  have hport := clearedConsole_sends.initialized
  have hport' := fbConsole_sends.initialized
  have hsame : ((panicException 14 2 true 0xB8000).foldl playCall clearedConsole).serial =
      ((panicException 14 2 true 0xB8000).foldl playCall fbConsole).serial := by
    rw [(playCalls_sends _ hport).serial, (playCalls_sends _ hport').serial,
      clearedConsole_sends.serial, fbConsole_sends.serial]
    rfl
  refine ⟨hsame, panicLog_unique hport hport' hsame, fun hlog => ?_⟩
  exact absurd ((panicLog_unique hport hport' hlog).2.2.2 rfl) (by decide)

end WaluOs
