import WaluOs.Storaged
import WaluOs.PosixShell

/-!
# What the shell makes of a probe

`print_probe_info` writes the device into two texts, cuts them to the buffer, and has the shell
run them. `is_valid_block_path` looks at the first five bytes of the device alone.

`probe_reads_iff` says for which devices the texts are the commands they are meant to be.

The reader of the library is run over the text, whose last word is the device. If all its bytes
stand for themselves the word comes out as it went in; if one does not, the reader refuses the
text, or what it has read is shorter.
-/

namespace WaluOs

open CStrings PosixShell

/-- The text of the first `popen`. The device name is put into it as it is, and what does not fit
into the 512 bytes of the buffer is cut off. -/
def sizeText (device : List UInt8) : List UInt8 :=
  snprintf 512 (lit "lsblk -ndo SIZE " ++ device ++ lit " 2>/dev/null")

/-- The text of the second, which is put together in the same way. -/
def typeText (device : List UInt8) : List UInt8 :=
  snprintf 512 (lit "blkid -o value -s TYPE " ++ device ++ lit " 2>/dev/null")

/-- These are all. -/
theorem printProbeInfo_eq (sys : StorageSystem) (device : List UInt8) :
    printProbeInfo sys device =
      [lit "device=" ++ device ++ [0x0A],
        lit "block_device=" ++ yesNo (sys.isBlockDevice device) ++ [0x0A],
        lit "mounted=" ++ yesNo (sys.isDeviceMounted device) ++ [0x0A],
        probeLine "size=" (sys.popen (sizeText device)),
        probeLine "fstype=" (sys.popen (typeText device))] :=
  rfl

/-- The words of a probe, with its errors thrown away. It is what the text is meant to be: one
command whose last argument is the device. -/
def probeCommand (words : List (List UInt8)) (device : List UInt8) : SimpleCommand :=
  ⟨words ++ [device], [⟨lit "2", lit ">", lit "/dev/null"⟩]⟩

/-- A text is cut at its end. -/
theorem snprintf_append (front rest : List UInt8) (h : front.length ≤ 511) :
    snprintf 512 (front ++ rest) = front ++ rest.take (511 - front.length) := by
  rw [snprintf, List.take_append, List.take_of_length_le h]

/-- A command that is read as it is meant is written out. -/
theorem spelled_of_reads {front : List UInt8} {words : List (List UInt8)}
    (hfront : run start (front ++ lit "/dev/") =
      .ok (.plain, ⟨some (bare (lit "/dev/")), none, false, words, []⟩))
    (hlength : front.length ≤ 499) {rest : List UInt8}
    (h : readCommand (snprintf 512 (front ++ (lit "/dev/" ++ rest) ++ lit " 2>/dev/null")) =
      .ok (probeCommand words (lit "/dev/" ++ rest))) :
    Spelled (lit "/dev/" ++ rest) ∧ front.length + (lit "/dev/" ++ rest).length ≤ 499 := by
  have hdev : (lit "/dev/").length = 5 := rfl
  have hredirect : (Redirect.text ⟨lit "2", lit ">", lit "/dev/null"⟩).length = 11 := rfl
  have hsuffix : (lit " 2>/dev/null").length = 12 := rfl
  have htext : front ++ (lit "/dev/" ++ rest) ++ lit " 2>/dev/null" =
      (front ++ lit "/dev/") ++ (rest ++ lit " 2>/dev/null") := by
    simp only [List.append_assoc]
  rw [readCommand, htext, snprintf_append _ _ (by rw [List.length_append]; omega),
    readFrom_append hfront] at h
  have hliteral : ∀ c ∈ lit "/dev/", isLiteral c = true := List.all_eq_true.mp rfl
  have hshort := word_redirect_length hliteral ⟨0x2F, by decide⟩ (List.cons_ne_nil _ _) h
  rw [hredirect, List.length_take] at hshort
  simp only [List.length_append, hdev, hsuffix] at hshort ⊢
  -- one byte more than the word and the redirection have is all that the text has
  obtain ⟨hle, hspelled | hlt⟩ := hshort
  · exact ⟨hspelled, by omega⟩
  · omega

/-- And one that is written out is read as it is meant. -/
theorem reads_of_spelled {front name : List UInt8} {args : List (List UInt8)}
    (hfront : run start (front ++ lit "/dev/") =
      .ok (.plain, ⟨some (bare (lit "/dev/")), none, false, name :: args, []⟩))
    (hname : ¬(name ∈ reservedWords ∨ 0x3D ∈ name)) {rest : List UInt8}
    (h : Spelled (lit "/dev/" ++ rest))
    (hfits : front.length + (lit "/dev/" ++ rest).length ≤ 499) :
    readCommand (snprintf 512 (front ++ (lit "/dev/" ++ rest) ++ lit " 2>/dev/null")) =
      .ok (probeCommand (name :: args) (lit "/dev/" ++ rest)) := by
  have hsuffix : (lit " 2>/dev/null").length = 12 := rfl
  have hblank : lit " 2>/dev/null" = [0x20] ++ lit "2>/dev/null" := rfl
  have hall : snprintf 512 (front ++ (lit "/dev/" ++ rest) ++ lit " 2>/dev/null") =
      front ++ (lit "/dev/" ++ rest) ++ lit " 2>/dev/null" := by
    refine List.take_of_length_le ?_
    rw [List.length_append, List.length_append, hsuffix]
    omega
  have htext : front ++ (lit "/dev/" ++ rest) ++ lit " 2>/dev/null" =
      (front ++ lit "/dev/") ++ ((rest ++ [0x20]) ++ lit "2>/dev/null") := by
    rw [hblank]
    simp only [List.append_assoc]
  have hredirect : ∀ words, run (.plain, ⟨none, none, false, words, []⟩) (lit "2>/dev/null") =
      .ok (.plain, ⟨some (bare (lit "/dev/null")), some (lit "2", lit ">"), false, words, []⟩) :=
    fun _ => rfl
  have hend : ∀ words, Tokens.endWord
      ⟨some (bare (lit "/dev/null")), some (lit "2", lit ">"), false, words, []⟩ =
        .ok ⟨none, none, false, words, [⟨lit "2", lit ">", lit "/dev/null"⟩]⟩ := fun _ => rfl
  rw [readCommand, hall, htext, readFrom_append hfront,
    readFrom_append (run_word h (by simp [lit])), readFrom, hredirect]
  dsimp only
  rw [if_pos (Or.inl rfl)]
  exact command_of_endWord (hend _) rfl rfl hname

/-- **Which devices are probed as they should be**: those of which each byte stands for itself,
and which fit. The name is put into the text of a command as it is, and the shell reads the text.
-/
theorem probe_reads_iff (device : List UInt8) (h : isValidBlockPath device = true) :
    (readCommand (sizeText device) =
        .ok (probeCommand [lit "lsblk", lit "-ndo", lit "SIZE"] device) ∧
      readCommand (typeText device) =
        .ok (probeCommand [lit "blkid", lit "-o", lit "value", lit "-s", lit "TYPE"] device)) ↔
      (∀ c ∈ device, isLiteral c = true) ∧ isPattern (bare device) = false ∧
        device.length ≤ 476 := by
  obtain ⟨rest, rfl⟩ := ((isValidBlockPath_iff device).mp h).1
  have hsize : run start (lit "lsblk -ndo SIZE " ++ lit "/dev/") =
      .ok (.plain, ⟨some (bare (lit "/dev/")), none, false,
        [lit "lsblk", lit "-ndo", lit "SIZE"], []⟩) := by decide
  have htype : run start (lit "blkid -o value -s TYPE " ++ lit "/dev/") =
      .ok (.plain, ⟨some (bare (lit "/dev/")), none, false,
        [lit "blkid", lit "-o", lit "value", lit "-s", lit "TYPE"], []⟩) := by decide
  have hsizeLength : (lit "lsblk -ndo SIZE ").length = 16 := rfl
  have htypeLength : (lit "blkid -o value -s TYPE ").length = 23 := rfl
  constructor
  · rintro ⟨-, hread⟩
    obtain ⟨hspelled, hfits⟩ := spelled_of_reads htype (by decide) hread
    exact ⟨hspelled.literal, hspelled.noPattern, by omega⟩
  · rintro ⟨hliteral, hpattern, hfits⟩
    have hspelled : Spelled (lit "/dev/" ++ rest) := ⟨hliteral, hpattern⟩
    exact ⟨reads_of_spelled hsize (by decide) hspelled (by omega),
      reads_of_spelled htype (by decide) hspelled (by omega)⟩

theorem probe_reads_iff_sda :
    readCommand (sizeText (lit "/dev/sda")) =
      .ok (probeCommand [lit "lsblk", lit "-ndo", lit "SIZE"] (lit "/dev/sda")) :=
  ((probe_reads_iff (lit "/dev/sda") (by decide)).mpr
    ⟨List.all_eq_true.mp rfl, rfl, by decide⟩).1

/-- Devices that end the command, and that add a word and a redirection to it. -/
theorem specialDevices_read :
    isValidBlockPath (lit "/dev/sda;reboot") = true ∧
      readCommand (sizeText (lit "/dev/sda;reboot")) = .error .control ∧
      isValidBlockPath (lit "/dev/sda -P >x") = true ∧
      readCommand (sizeText (lit "/dev/sda -P >x")) =
        .ok ⟨[lit "lsblk", lit "-ndo", lit "SIZE", lit "/dev/sda", lit "-P"],
          [⟨[], lit ">", lit "x"⟩, ⟨lit "2", lit ">", lit "/dev/null"⟩]⟩ := by
  decide

end WaluOs
