import WaluOs.ConsoleUtf8

/-!
# How UTF-8 output finds its place again

The console decodes what it is sent without looking back, so what a broken sequence does
to the characters after it is a matter of the one number that the sequence leaves
behind: how many continuation bytes are still to come. `Awaiting` says that number, and
`Utf8.awaits` how it changes with every byte that reaches the decoder; ASCII and control
bytes do not.

A character is printed after `p` exactly when that number is zero (`resynchronises_iff`).
When it is not, the lead byte of the character is taken for the byte that ends the broken
sequence, and goes down with it.
-/

namespace WaluOs

open Loops Utf8

variable {c : Console}

/-- The bytes that reach the decoder: ASCII is handled before it. -/
def highBytes (p : List UInt8) : List UInt8 := p.filter fun b => 0x80 ≤ b

theorem highBytes_high {b : UInt8} (hb : 0x80 ≤ b) {p : List UInt8} :
    highBytes (b :: p) = b :: highBytes p := List.filter_cons_of_pos (decide_eq_true hb)

theorem highBytes_low {b : UInt8} (hb : ¬0x80 ≤ b) {p : List UInt8} :
    highBytes (b :: p) = highBytes p :=
  List.filter_cons_of_neg fun hdecide => hb (of_decide_eq_true hdecide)

/-- After `p`, the last byte of the encoding of `ch` makes `console_putc` call
`console_emit_codepoint` with it, and no sequence is open afterwards. So whatever came before, the
decoder is in step again. -/
def Resynchronises (c : Console) (p : List UInt8) (ch : Char) : Prop :=
  let before := (p ++ (String.utf8EncodeChar ch).dropLast).foldl consolePutc c
  let after := (p ++ String.utf8EncodeChar ch).foldl consolePutc c
  (∃ calls, after.shown = before.shown ++ .emitCodepoint ch.val :: calls) ∧ after.utf8Needed = 0

/-- The console waits for `n` more continuation bytes, whatever they are to make. -/
structure Awaiting (c : Console) (n : ℕ) : Prop where
  ground : c.ansiParserState = .ground
  needed : c.utf8Needed.toNat = n

/-! ## Bytes that bypass the decoder -/

theorem SameParser.refl (t : Term) : SameParser t t := ⟨rfl, rfl, rfl, rfl⟩

theorem consoleEmitCodepoint_sameParser (c : Console) (cp : UInt32) :
    SameParser c.toTerm (consoleEmitCodepoint c cp).toTerm := by
  by_cases hcp : cp = 0
  · rw [consoleEmitCodepoint]
    rw [if_pos hcp]
    exact ⟨rfl, rfl, rfl, rfl⟩
  · exact (consoleEmitCodepoint_prints c hcp).parser

theorem rawNewline_sameParser (c : Console) : SameParser c.toTerm (rawNewline c).toTerm := by
  have hmove : SameParser c.toTerm
      (c.update fun t => { t with cursorCol := 0, cursorRow := t.cursorRow + 1 }).toTerm :=
    ⟨rfl, rfl, rfl, rfl⟩
  exact hmove.trans (scrollIfNeeded_prints _).parser

theorem consoleBackspace_sameParser (c : Console) :
    SameParser c.toTerm (consoleBackspace c).toTerm := by
  have hretreat : SameParser c.toTerm (retreatCursor c).toTerm := by
    rw [retreatCursor]
    split <;> exact ⟨rfl, rfl, rfl, rfl⟩
  rw [consoleBackspace]
  split
  · exact .refl _
  · exact ⟨hretreat.state, hretreat.codepoint, hretreat.needed, hretreat.total⟩

/-- Control bytes and ASCII leave the parsers alone, but for the escape byte. -/
theorem consoleHandleGroundByte_sameParser (c : Console) {byte : UInt8} (hlow : byte < 0x80)
    (hescape : byte ≠ 0x1B) : SameParser c.toTerm (consoleHandleGroundByte c byte).toTerm := by
  rw [consoleHandleGroundByte, if_neg hescape]
  by_cases hnewline : byte = 0x0A
  · rw [if_pos hnewline]
    exact rawNewline_sameParser c
  by_cases hreturn : byte = 0x0D
  · rw [if_neg hnewline, if_pos hreturn]
    exact ⟨rfl, rfl, rfl, rfl⟩
  by_cases hbackspace : byte = 0x08
  · rw [if_neg hnewline, if_neg hreturn, if_pos hbackspace]
    exact consoleBackspace_sameParser c
  by_cases htab : byte = 0x09
  · let Same (d : Console) : Prop := SameParser c.toTerm d.toTerm
    have hstart : Same c := .refl _
    rw [if_neg hnewline, if_neg hreturn, if_neg hbackspace, if_pos htab]
    exact forRange_invariant hstart fun _ d _ _ hd => hd.trans (rawPutVisible_prints d 0x20).parser
  rw [if_neg hnewline, if_neg hreturn, if_neg hbackspace, if_neg htab, if_pos hlow]
  split
  · exact .refl _
  · exact (rawPutVisible_prints c byte).parser

theorem Awaiting.same {c' : Console} {n : ℕ} (h : Awaiting c n)
    (hsame : SameParser c.toTerm c'.toTerm) : Awaiting c' n :=
  ⟨hsame.state.trans h.ground, (congrArg UInt8.toNat hsame.needed).trans h.needed⟩

theorem Awaiting.serial {n : ℕ} (h : Awaiting c n) (byte : UInt8) :
    Awaiting (serialWriteChar c byte) n := by
  refine h.same ?_
  rw [serialWriteChar_toTerm]
  exact .refl _

/-- A byte that bypasses the decoder. -/
theorem Awaiting.low {n : ℕ} (h : Awaiting c n) {byte : UInt8} (hlow : byte < 0x80)
    (hescape : byte ≠ 0x1B) : Awaiting (consolePutc c byte) n := by
  have hserial : Awaiting
      (serialWriteChar (if byte = 0x0A then serialWriteChar c 0x0D else c) byte) n := by
    refine Awaiting.serial ?_ byte
    split
    · exact h.serial 0x0D
    · exact h
  have hground := hserial.ground
  rw [consolePutc]
  rw [hground]
  exact hserial.same (consoleHandleGroundByte_sameParser _ hlow hescape)

/-! ## Bytes that reach it -/

/-- The masks of `console_emit_utf8_byte` take no other byte for a lead byte. -/
theorem stray_masks {byte : UInt8} (hhigh : 0x80 ≤ byte) (hlead : ¬IsLead byte) :
    byte &&& 0xE0 ≠ 0xC0 ∧ byte &&& 0xF0 ≠ 0xE0 ∧ byte &&& 0xF8 ≠ 0xF0 := by
  have hall : ∀ n < 0x100, 0x80 ≤ UInt8.ofNat n → ¬IsLead (UInt8.ofNat n) →
      UInt8.ofNat n &&& 0xE0 ≠ 0xC0 ∧ UInt8.ofNat n &&& 0xF0 ≠ 0xE0 ∧
        UInt8.ofNat n &&& 0xF8 ≠ 0xF0 := by decide +kernel
  have h := hall byte.toNat byte.toNat_lt
  rw [UInt8.ofNat_toNat] at h
  exact h hhigh hlead

/-- The mask of a continuation byte fits no other byte. -/
theorem other_mask {byte : UInt8} (hbyte : ¬IsContinuation byte) : byte &&& 0xC0 ≠ 0x80 := by
  have hall : ∀ n < 0x100, ¬IsContinuation (UInt8.ofNat n) → UInt8.ofNat n &&& 0xC0 ≠ 0x80 := by decide +kernel
  have h := hall byte.toNat byte.toNat_lt
  rw [UInt8.ofNat_toNat] at h
  exact h hbyte

theorem Awaiting.waiting (h : Awaiting c 0) : Waiting c c.shown :=
  ⟨h.ground, UInt8.toNat_inj.mp h.needed, rfl⟩

theorem Waiting.awaiting {events : List ConsoleEvent} (h : Waiting c events) : Awaiting c 0 :=
  ⟨h.ground, congrArg UInt8.toNat h.needed⟩

/-- A byte that begins no sequence is printed as a question mark. -/
theorem Waiting.stray {events : List ConsoleEvent} (h : Waiting c events) {byte : UInt8}
    (hhigh : 0x80 ≤ byte) (hlead : ¬IsLead byte) :
    Waiting (consolePutc c byte) (events ++ codepointEvents 0x3F) := by
  obtain ⟨htwo, hthree, hfour⟩ := stray_masks hhigh hlead
  have hserial := h.serial byte
  rw [consolePutc_high h.ground hhigh, consoleEmitUtf8Byte, if_pos hserial.needed, if_neg htwo,
    if_neg hthree, if_neg hfour]
  exact hserial.prints (consoleEmitCodepoint_prints _ (by decide))

theorem Awaiting.pending {n : ℕ} (h : Awaiting c n) (hn : n ≠ 0) : c.utf8Needed ≠ 0 := by
  intro hzero
  have hneeded := h.needed
  rw [hzero] at hneeded
  exact hn hneeded.symm

/-- A byte that cuts a sequence short is printed as a question mark, too, and nothing is left
of it. -/
theorem Awaiting.cut {n : ℕ} (h : Awaiting c n) (hn : n ≠ 0) {byte : UInt8} (hhigh : 0x80 ≤ byte)
    (hother : ¬IsContinuation byte) :
    Waiting (consolePutc c byte) (c.shown ++ codepointEvents 0x3F) := by
  have hserial := h.serial byte
  have hreset : Waiting ((serialWriteChar c byte).update fun t =>
      { t with utf8Needed := 0, utf8Total := 0, utf8Codepoint := 0 }) c.shown := by
    refine ⟨hserial.ground, rfl, ?_⟩
    change (serialWriteChar c byte).shown = c.shown
    rw [serialWriteChar_toDisplay]
  rw [consolePutc_high h.ground hhigh, consoleEmitUtf8Byte, if_neg (hserial.pending hn),
    if_pos (other_mask hother)]
  exact hreset.prints (consoleEmitCodepoint_prints _ (by decide))

theorem Awaiting.settle {n : ℕ} (h : Awaiting c n) :
    Awaiting (c.update fun t => { t with utf8Total := 0, utf8Codepoint := 0 }) n :=
  ⟨h.ground, h.needed⟩

/-- A continuation byte is counted, whatever is printed. -/
theorem Awaiting.counted {n : ℕ} (h : Awaiting c (n + 1)) {byte : UInt8}
    (hbyte : IsContinuation byte) : Awaiting (consolePutc c byte) n := by
  have hserial := h.serial byte
  have hnext : Awaiting (shiftIn (serialWriteChar c byte) byte) n := by
    refine ⟨hserial.ground, ?_⟩
    have hpos : 1 ≤ (serialWriteChar c byte).utf8Needed := by
      rw [UInt8.le_iff_toNat_le, hserial.needed]
      exact Nat.succ_pos n
    change ((serialWriteChar c byte).utf8Needed - 1).toNat = n
    rw [UInt8.toNat_sub_of_le _ _ hpos, hserial.needed]
    exact Nat.add_sub_cancel n 1
  rw [consolePutc_continuation h.ground (h.pending n.succ_ne_zero) hbyte]
  generalize shiftIn (serialWriteChar c byte) byte = s at hnext ⊢
  have hemit : ∀ cp, Awaiting (consoleEmitCodepoint s cp) n := fun cp =>
    hnext.same (consoleEmitCodepoint_sameParser s cp)
  split
  · dsimp only
    split
    · exact (hemit _).settle
    · exact (hemit _).settle
  · exact hnext

/-- A lead byte announces. -/
theorem Awaiting.announces (h : Awaiting c 0) {byte : UInt8} (hbyte : IsLead byte) :
    Awaiting (consolePutc c byte) (announced byte) := by
  have hlead := h.waiting.lead hbyte
  refine ⟨hlead.ground, ?_⟩
  have hall : ∀ n ∈ [1, 2, 3], (UInt8.ofNat n).toNat = n := by decide
  rw [hlead.needed]
  exact hall _ (announced_mem byte)

/-- Any byte that reaches the decoder. -/
theorem Awaiting.high {n : ℕ} (h : Awaiting c n) {byte : UInt8} (hhigh : 0x80 ≤ byte) :
    Awaiting (consolePutc c byte) (awaits n byte) := by
  cases n with
  | zero =>
    by_cases hlead : IsLead byte
    · rw [awaits_lead hlead]
      exact h.announces hlead
    · rw [awaits_stray hlead]
      exact (h.waiting.stray hhigh hlead).awaiting
  | succ n =>
    by_cases hcont : IsContinuation byte
    · rw [awaits_continuation hcont]
      exact h.counted hcont
    · rw [awaits_other n.succ_ne_zero hcont]
      exact (h.cut n.succ_ne_zero hhigh hcont).awaiting

/-- **What some bytes leave open.** -/
theorem Awaiting.bytes (p : List UInt8) :
    ∀ {c : Console} {n : ℕ}, Awaiting c n → (∀ b ∈ p, b ≠ 0x1B) →
      Awaiting (p.foldl consolePutc c) ((highBytes p).foldl awaits n) := by
  induction p with
  | nil => exact fun h _ => h
  | cons b p ih =>
    intro c n h hp
    obtain ⟨hb, hrest⟩ := List.forall_mem_cons.mp hp
    rw [List.foldl_cons]
    by_cases hhigh : 0x80 ≤ b
    · rw [highBytes_high hhigh, List.foldl_cons]
      exact ih (h.high hhigh) hrest
    · rw [highBytes_low hhigh]
      exact ih (h.low (UInt8.not_le.mp hhigh) hb) hrest

/-! ## A character -/

/-- The encoding of a character that is not ASCII, taken apart at its last byte. -/
theorem utf8EncodeChar_last {ch : Char} (hch : 0x80 ≤ ch.toNat) :
    ∃ lead init last, String.utf8EncodeChar ch = lead :: init ++ [last] ∧
      (String.utf8EncodeChar ch).dropLast = lead :: init ∧ Multibyte lead (init ++ [last]) ∧
      decodedEvents (announced lead) (value lead (init ++ [last])) = codepointEvents ch.val := by
  obtain ⟨lead, conts, hencode, hseq, hleast, hvalue⟩ := utf8EncodeChar_multibyte hch
  obtain ⟨init, last, rfl⟩ := hseq.last
  have hval : UInt32.ofNat ch.toNat = ch.val := UInt32.ofNat_toNat
  rw [← List.cons_append] at hencode
  refine ⟨lead, init, last, hencode, ?_, hseq, ?_⟩
  · rw [hencode, List.dropLast_concat]
  · rw [hvalue, decodedEvents, if_pos ⟨hleast, ch.valid⟩, hval]

/-- A console that waits for the next character prints it at its last byte. -/
theorem Waiting.resynchronises {events : List ConsoleEvent} (h : Waiting c events) {ch : Char}
    (hch : 0x80 ≤ ch.toNat) : Resynchronises c [] ch := by
  obtain ⟨lead, init, last, hencode, hbefore, hseq, hevents⟩ := utf8EncodeChar_last hch
  have hlast := h.atLast hseq
  rw [hevents, ← (h.upToLast hseq).shown] at hlast
  rw [Resynchronises, hbefore, hencode, List.nil_append, List.nil_append, List.foldl_append]
  exact ⟨⟨_, hlast.shown⟩, hlast.needed⟩

/-- Continuation bytes that continue nothing. -/
theorem Waiting.strays (conts : List UInt8) :
    ∀ {c : Console} {events : List ConsoleEvent}, Waiting c events →
      (∀ b ∈ conts, IsContinuation b) → ∃ events', Waiting (conts.foldl consolePutc c) events' := by
  induction conts with
  | nil => exact fun h _ => ⟨_, h⟩
  | cons b conts ih =>
    intro c events h hconts
    obtain ⟨hb, hrest⟩ := List.forall_mem_cons.mp hconts
    exact ih (h.stray hb.1 hb.not_isLead) hrest

/-- A console that waits for continuation bytes loses the next character. -/
theorem Awaiting.loses {n : ℕ} (h : Awaiting c n) (hn : n ≠ 0) {ch : Char} (hch : 0x80 ≤ ch.toNat) :
    ¬Resynchronises c [] ch := by
  obtain ⟨lead, init, last, hencode, hdrop, hseq, -⟩ := utf8EncodeChar_last hch
  obtain ⟨hinit, hlast⟩ := List.forall_mem_append.mp hseq.conts
  have hlast := List.forall_mem_singleton.mp hlast
  have hlead : IsLead lead := hseq.isLead
  have hcut := h.cut hn (UInt8.le_trans (by decide) hlead.1) hlead.not_isContinuation
  obtain ⟨events, hbefore⟩ := hcut.strays init hinit
  have hafter := hbefore.stray hlast.1 hlast.not_isLead
  rw [Resynchronises, hdrop, hencode, List.nil_append, List.nil_append, List.foldl_append]
  rintro ⟨⟨calls, hcalls⟩, -⟩
  have hcalls := (hafter.shown.symm.trans hcalls).trans (congrArg (· ++ _) hbefore.shown)
  have hfirst := List.head_eq_of_cons_eq (List.append_cancel_left hcalls)
  have hquestion : ch.val = 0x3F := (ConsoleEvent.emitCodepoint.inj hfirst).symm
  have hlow : ch.toNat = 0x3F := congrArg UInt32.toNat hquestion
  rw [hlow] at hch
  exact absurd hch (by decide)

/-- A character, after the bytes before it. -/
theorem resynchronises_append (c : Console) (p : List UInt8) (ch : Char) :
    Resynchronises c p ch ↔ Resynchronises (p.foldl consolePutc c) [] ch := by
  simp only [Resynchronises, List.foldl_append, List.nil_append]

/-! ## The theorem -/

/-- **When a character survives what was sent before it**: when no sequence has been broken
off at the end of that, among the bytes that reach the decoder. -/
theorem resynchronises_iff (c : Console) (hground : c.ansiParserState = .ground) (p : List UInt8)
    (hp : ∀ b ∈ p, b ≠ 0x1B) (ch : Char) (hch : 0x80 ≤ ch.toNat) :
    Resynchronises c p ch ↔ Utf8.Settled c.utf8Needed.toNat (highBytes p) := by
  have hstart : Awaiting c c.utf8Needed.toNat := ⟨hground, rfl⟩
  have hbytes := hstart.bytes p hp
  rw [resynchronises_append, ← foldl_awaits_eq_zero_iff]
  constructor
  · intro h
    by_contra hopen
    exact hbytes.loses hopen hch h
  · intro hdone
    rw [hdone] at hbytes
    exact hbytes.waiting.resynchronises hch

/-- Half a euro sign, cut off by a byte that no encoding has, and then a whole one. -/
theorem resynchronises_iff_euro : Resynchronises (idleConsole vgaText) [0xE2, 0x82, 0x41, 0xFF] '€' := by
  have hp : ∀ b ∈ [(0xE2 : UInt8), 0x82, 0x41, 0xFF], b ≠ 0x1B := by decide +kernel
  have hsettled : Utf8.Settled 0 (highBytes [0xE2, 0x82, 0x41, 0xFF]) :=
    (foldl_awaits_eq_zero_iff _ 0).mp (by decide)
  exact (resynchronises_iff (idleConsole vgaText) rfl _ hp '€' (by decide)).mpr hsettled

/-- Half a euro sign and a whole one: the lead byte of the second is lost. -/
theorem halfEuro_swallows_euro :
    (idleConsole vgaText).ansiParserState = .ground ∧ (idleConsole vgaText).utf8Needed = 0 ∧
      ¬Resynchronises (idleConsole vgaText) [0xE2, 0x82] '€' := by
  have hstart : Awaiting (idleConsole vgaText) 0 := ⟨rfl, rfl⟩
  have hp : ∀ b ∈ [(0xE2 : UInt8), 0x82], b ≠ 0x1B := by decide +kernel
  have hopen : (highBytes [0xE2, 0x82]).foldl awaits 0 ≠ 0 := by decide
  refine ⟨rfl, rfl, ?_⟩
  rw [resynchronises_append]
  exact (hstart.bytes _ hp).loses hopen (by decide)

end WaluOs
