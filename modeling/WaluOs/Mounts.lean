import WaluOs.Scanf
import WaluOs.Storaged

/-!
# Which devices are mounted

`is_device_mounted` reads `/proc/self/mounts` with one `fscanf` for each line, and
`fscanf` knows nothing of lines. It stays in step with them as long as every field fits
the width of its conversion: `scanMount_line` says that the record that begins with a
line ends with it exactly when it does. A longer field, and the options of an overlay
are one, leaves the scan in the middle of the line, and from then on it takes other
fields for devices.
-/

namespace WaluOs

open CStrings Scanf

/-- What `fscanf` assigns in `is_device_mounted`. The two numbers behind are read and thrown away.
-/
structure MountRecord : Type where
  /-- `dev` -/
  dev : List UInt8
  /-- `mountpt` -/
  mountpt : List UInt8
  /-- `fstype` -/
  fstype : List UInt8
  /-- `opts` -/
  opts : List UInt8
  deriving DecidableEq, Repr

/-- `"%*d %*d"`: what is left of the stream; the first conversion that fails is the last. -/
def scanNumbers (stream : List UInt8) : List UInt8 :=
  if (scanDecimal stream).2 then (scanDecimal (scanDecimal stream).1).1 else (scanDecimal stream).1

/-- `fscanf` with `"%255s %255s %63s %255s %*d %*d"`, if its value is 4: the record, and what is
left of the stream. The numbers are not counted. -/
def scanMount (stream : List UInt8) : Option (MountRecord × List UInt8) :=
  (scanString 255 stream).bind fun dev =>
    (scanString 255 dev.2).bind fun mountpt =>
      (scanString 63 mountpt.2).bind fun fstype =>
        (scanString 255 fstype.2).map fun opts =>
          (⟨dev.1, mountpt.1, fstype.1, opts.1⟩, scanNumbers opts.2)

/-- The loop of `is_device_mounted`, which may go around `fuel` times. -/
def mountedLoop (device : List UInt8) : ℕ → List UInt8 → Option Bool
  | 0, _ => none
  | fuel + 1, stream =>
    match scanMount stream with
    | none => some false
    | some (r, rest) => if cstr r.dev = device then some true else mountedLoop device fuel rest

/-- `is_device_mounted`; `mounts` is what can be read of `/proc/self/mounts`, if it can be opened.
There is no result if the fuel is less than the number of records. -/
def isDeviceMounted (fuel : ℕ) (mounts : Option (List UInt8)) (device : List UInt8) : Option Bool :=
  match mounts with
  | none => some false
  | some content => mountedLoop device fuel content

/-! ## The file -/

/-- A field. -/
def IsField (w : List UInt8) : Prop := w ≠ [] ∧ ∀ b ∈ w, b ≠ 0x20 ∧ b ≠ 0x09 ∧ b ≠ 0x0A

instance : DecidablePred IsField := fun w =>
  @instDecidableAnd _ _ _ (List.decidableBAll _ w)

/-- A decimal number. -/
def IsNumber (w : List UInt8) : Prop := w ≠ [] ∧ ∀ b ∈ w, isDigit b = true

instance : DecidablePred IsNumber := fun w =>
  @instDecidableAnd _ _ _ (List.decidableBAll _ w)

/-- Blanks between two fields. -/
def IsGap (g : List UInt8) : Prop := g ≠ [] ∧ ∀ b ∈ g, b = 0x20 ∨ b = 0x09

/-- A line of `/proc/self/mounts`, as the kernel writes it: fields without blanks in them, and
some blanks between. -/
structure MountLine : Type where
  /-- the device -/
  dev : List UInt8
  /-- where it is mounted -/
  mountpt : List UInt8
  /-- its type -/
  fstype : List UInt8
  /-- its options -/
  opts : List UInt8
  /-- for `dump` -/
  freq : List UInt8
  /-- for `fsck` -/
  passno : List UInt8
  /-- the blanks between two of them -/
  gap : Fin 5 → List UInt8
  /-- four fields -/
  isField : ∀ w ∈ [dev, mountpt, fstype, opts], IsField w
  /-- two numbers -/
  isNumber : IsNumber freq ∧ IsNumber passno
  /-- blanks -/
  isGap : ∀ i, IsGap (gap i)

/-- A line without its newline. -/
def MountLine.body (ℓ : MountLine) : List UInt8 :=
  ℓ.dev ++ (ℓ.gap 0 ++ (ℓ.mountpt ++ (ℓ.gap 1 ++ (ℓ.fstype ++ (ℓ.gap 2 ++ (ℓ.opts ++ (ℓ.gap 3 ++
    (ℓ.freq ++ (ℓ.gap 4 ++ ℓ.passno)))))))))

/-- The content of the file: the lines, each with its newline. -/
def mountsContent (lines : List MountLine) : List UInt8 := lines.flatMap fun ℓ => ℓ.body ++ [0x0A]

/-- The fields hold no white space at all. They have none of the blanks that separate them, but
`fscanf` also ends a string at a vertical tab, a form feed or a carriage return. -/
def MountLine.Dark (ℓ : MountLine) : Prop :=
  ∀ w ∈ [ℓ.dev, ℓ.mountpt, ℓ.fstype, ℓ.opts], ∀ b ∈ w, isSpace b = false

instance (ℓ : MountLine) : Decidable ℓ.Dark :=
  @List.decidableBAll _ _ (fun w => List.decidableBAll _ w) _

/-- Every field fits its buffer, so that one conversion takes all of it. What does not fit is left
for the next conversion. -/
structure MountLine.Fits (ℓ : MountLine) : Prop where
  dev : ℓ.dev.length ≤ 255
  mountpt : ℓ.mountpt.length ≤ 255
  fstype : ℓ.fstype.length ≤ 63
  opts : ℓ.opts.length ≤ 255

/-- A record that begins with the line has its device, up to 255 bytes of it. Of the other fields
it needs no more than that they are not all blank to `fscanf`: a record consists of four strings,
and the two numbers of the line may be two of them. -/
structure MountLine.Named (ℓ : MountLine) : Prop where
  /-- no white space in the device -/
  dark : ∀ b ∈ ℓ.dev, isSpace b = false
  /-- and no NUL -/
  noNul : 0 ∉ ℓ.dev
  /-- another string before the numbers -/
  more : ∃ w ∈ [ℓ.mountpt, ℓ.fstype, ℓ.opts], ∃ b ∈ w, isSpace b = false

/-- The scan is in step with the lines until it has found the device. A line before the first one
that names the device has to be read to its end, or the next record begins in the middle of it,
and what is read of its device, up to a NUL, must not be the device by accident. Of the line that
names the device only the beginning counts, and of the lines behind it nothing. -/
def ReadsInStep (device : List UInt8) : List MountLine → Prop
  | [] => True
  | ℓ :: lines =>
    (ℓ.dev = device → ℓ.Named) ∧
      (ℓ.dev ≠ device → ℓ.Dark ∧ ℓ.Fits ∧ cstr ℓ.dev ≠ device ∧ ReadsInStep device lines)

/-! ## One record -/

variable {u : List UInt8} {c : UInt8} {extra ws : List (List UInt8)} {w : List UInt8}

/-- A string is taken from what earlier ones have left over, or else from the next word; nothing is
left over exactly when nothing was and the word fits. -/
theorem scanString_extra (width : ℕ) (rest : List UInt8) (hc : isSpace c = true)
    (h : fields u = extra ++ w :: ws) :
    ∃ r u' extra', scanString width (u ++ c :: rest) = some (r, u' ++ c :: rest) ∧
      fields u' = extra' ++ ws ∧ (extra' = [] ↔ extra = [] ∧ w.length ≤ width) ∧
      (extra = [] → r = w.take width) := by
  cases extra with
  | nil =>
    obtain ⟨u', hscan, hleft⟩ := scanString_words width rest hc h
    refine ⟨_, u', if w.length ≤ width then [] else [w.drop width], hscan, ?_, ?_, fun _ => rfl⟩
    · rw [hleft]
      split <;> rfl
    · split <;> simp [*]
  | cons e extra =>
    obtain ⟨u', hscan, hleft⟩ := scanString_words width rest hc h
    refine ⟨_, u', (if e.length ≤ width then extra else e.drop width :: extra) ++ [w], hscan, ?_,
      ?_, fun hnil => absurd hnil (List.cons_ne_nil _ _)⟩
    · rw [hleft]
      split <;> simp
    · simp

/-- A number is not taken from the next word while something is left over. -/
theorem scanDecimal_extra (rest : List UInt8) (hc : isSpace c = true)
    (h : fields u = extra ++ w :: ws) (hextra : extra ≠ []) :
    ∃ u' extra', (scanDecimal (u ++ c :: rest)).1 = u' ++ c :: rest ∧ fields u' = extra' ++ ws ∧
      extra' ≠ [] := by
  cases extra with
  | nil => exact absurd rfl hextra
  | cons e extra =>
    obtain ⟨u', hscan, hleft⟩ := scanDecimal_words rest hc h
    rcases hleft with hleft | ⟨e', hleft⟩
    · exact ⟨u', extra ++ [w], hscan, by rw [hleft]; simp, by simp⟩
    · exact ⟨u', e' :: extra ++ [w], hscan, by rw [hleft]; simp, by simp⟩

/-- The two numbers end the line exactly when nothing has been left over. -/
theorem scanNumbers_line (rest : List UInt8) (hc : isSpace c = true) {freq passno : List UInt8}
    (h : fields u = extra ++ [freq, passno]) (hfreq : IsNumber freq) (hpassno : IsNumber passno) :
    ∃ u', scanNumbers (u ++ c :: rest) = u' ++ c :: rest ∧ (fields u' = [] ↔ extra = []) := by
  by_cases hextra : extra = []
  · rw [hextra] at h
    obtain ⟨u₁, hscan₁, h₁⟩ := scanDecimal_number rest hc h hfreq.2
    obtain ⟨u₂, hscan₂, h₂⟩ := scanDecimal_number rest hc h₁ hpassno.2
    refine ⟨u₂, ?_, iff_of_true h₂ hextra⟩
    rw [scanNumbers, hscan₁, if_pos rfl, hscan₂]
  · obtain ⟨u₁, extra₁, hscan₁, h₁, hne₁⟩ := scanDecimal_extra rest hc h hextra
    obtain ⟨u₂, extra₂, hscan₂, h₂, hne₂⟩ := scanDecimal_extra rest hc h₁ hne₁
    rw [scanNumbers]
    split
    · refine ⟨u₂, by rw [hscan₁, hscan₂], iff_of_false ?_ hextra⟩
      rw [h₂]
      simp [hne₂]
    · refine ⟨u₁, hscan₁, iff_of_false ?_ hextra⟩
      rw [h₁]
      simp

/-- The fields of a line. -/
def MountLine.fieldList (ℓ : MountLine) : List (List UInt8) :=
  [ℓ.dev, ℓ.mountpt, ℓ.fstype, ℓ.opts, ℓ.freq, ℓ.passno]

/-- Four strings are always read where there are four words; nothing is left over of them exactly
when they fit. -/
theorem scanMount_words {dev mountpt fstype opts : List UInt8} (rest : List UInt8)
    (hc : isSpace c = true) (h : fields u = dev :: mountpt :: fstype :: opts :: ws) :
    ∃ r u' extra, scanMount (u ++ c :: rest) = some (r, scanNumbers (u' ++ c :: rest)) ∧
      r.dev = dev.take 255 ∧ fields u' = extra ++ ws ∧
      (extra = [] ↔ dev.length ≤ 255 ∧ mountpt.length ≤ 255 ∧ fstype.length ≤ 63 ∧
        opts.length ≤ 255) := by
  have h₀ : fields u = [] ++ dev :: mountpt :: fstype :: opts :: ws := h
  obtain ⟨s₁, u₁, x₁, hscan₁, h₁, hx₁, hdev⟩ := scanString_extra 255 rest hc h₀
  obtain ⟨s₂, u₂, x₂, hscan₂, h₂, hx₂, -⟩ := scanString_extra 255 rest hc h₁
  obtain ⟨s₃, u₃, x₃, hscan₃, h₃, hx₃, -⟩ := scanString_extra 63 rest hc h₂
  obtain ⟨s₄, u₄, x₄, hscan₄, h₄, hx₄, -⟩ := scanString_extra 255 rest hc h₃
  refine ⟨⟨s₁, s₂, s₃, s₄⟩, u₄, x₄, ?_, hdev rfl, h₄, ?_⟩
  · rw [scanMount, hscan₁, Option.bind_some, hscan₂, Option.bind_some, hscan₃, Option.bind_some,
      hscan₄, Option.map_some]
  · rw [hx₄, hx₃, hx₂, hx₁]
    constructor
    · rintro ⟨⟨⟨⟨-, hd⟩, hm⟩, hf⟩, ho⟩
      exact ⟨hd, hm, hf, ho⟩
    · rintro ⟨hd, hm, hf, ho⟩
      exact ⟨⟨⟨⟨rfl, hd⟩, hm⟩, hf⟩, ho⟩

/-- **A record that begins with a line** names its device, up to 255 bytes of it, and ends with the
line exactly when every field fits. -/
theorem scanMount_line (ℓ : MountLine) (rest : List UInt8) (h : fields u = ℓ.fieldList) :
    ∃ r u', scanMount (u ++ 0x0A :: rest) = some (r, u' ++ 0x0A :: rest) ∧
      r.dev = ℓ.dev.take 255 ∧ (fields u' = [] ↔ ℓ.Fits) := by
  have hc : isSpace 0x0A = true := by decide
  obtain ⟨r, u₄, extra, hscan, hdev, h₄, hextra⟩ := scanMount_words rest hc h
  obtain ⟨u₅, hnumbers, hleft⟩ := scanNumbers_line rest hc h₄ ℓ.isNumber.1 ℓ.isNumber.2
  refine ⟨r, u₅, hnumbers ▸ hscan, hdev, ?_⟩
  rw [hleft, hextra]
  exact ⟨fun ⟨hd, hm, hf, ho⟩ => ⟨hd, hm, hf, ho⟩, fun h => ⟨h.dev, h.mountpt, h.fstype, h.opts⟩⟩

/-- The words of a line, whatever is in its fields. -/
theorem MountLine.fields_body (ℓ : MountLine) :
    fields ℓ.body = fields ℓ.dev ++ (fields ℓ.mountpt ++ (fields ℓ.fstype ++
      (fields ℓ.opts ++ [ℓ.freq, ℓ.passno]))) := by
  have hgap : ∀ i s t, fields (s ++ (ℓ.gap i ++ t)) = fields s ++ fields t := by
    refine fun i s t => words_append_delims (ℓ.isGap i).1 (fun b hb => ?_) s t
    rcases (ℓ.isGap i).2 b hb with rfl | rfl <;> decide
  have hnumber : ∀ w, IsNumber w → fields w = [w] := fun w hw =>
    words_word hw.1 fun b hb => isSpace_of_isDigit (hw.2 b hb)
  rw [body, hgap, hgap, hgap, hgap, hgap, hnumber _ ℓ.isNumber.1, hnumber _ ℓ.isNumber.2]
  rfl

/-- Without white space in the fields they are the words. -/
theorem MountLine.Dark.fields_body {ℓ : MountLine} (h : ℓ.Dark) :
    fields ℓ.body = ℓ.fieldList := by
  have hfield : ∀ w ∈ [ℓ.dev, ℓ.mountpt, ℓ.fstype, ℓ.opts], fields w = [w] := fun w hw =>
    words_word (ℓ.isField w hw).1 (h w hw)
  simp only [List.forall_mem_cons] at hfield
  rw [MountLine.fields_body, hfield.1, hfield.2.1, hfield.2.2.1, hfield.2.2.2.1]
  rfl

/-- Otherwise there are at least four, if one of the fields between device and numbers is not
blank. -/
theorem MountLine.Named.fields_body {ℓ : MountLine} (h : ℓ.Named) :
    ∃ w₁ w₂ w₃ ws, fields ℓ.body = ℓ.dev :: w₁ :: w₂ :: w₃ :: ws := by
  have hdev : fields ℓ.dev = [ℓ.dev] :=
    words_word (ℓ.isField ℓ.dev List.mem_cons_self).1 h.dark
  have hpos : ∀ w : List UInt8, (∃ b ∈ w, isSpace b = false) → 0 < (fields w).length := by
    rintro w ⟨b, hb, hdark⟩
    refine List.length_pos_iff.mpr fun hnil => ?_
    rw [words_eq_nil_iff.mp hnil b hb] at hdark
    cases hdark
  have hmore : 1 ≤ (fields ℓ.mountpt).length + (fields ℓ.fstype).length +
      (fields ℓ.opts).length := by
    obtain ⟨w, hw, hb⟩ := h.more
    have hw_pos := hpos w hb
    simp only [List.mem_cons, List.not_mem_nil, or_false] at hw
    rcases hw with rfl | rfl | rfl <;> omega
  rw [MountLine.fields_body, hdev]
  have hlen : 3 ≤ (fields ℓ.mountpt ++ (fields ℓ.fstype ++
      (fields ℓ.opts ++ [ℓ.freq, ℓ.passno]))).length := by
    simp only [List.length_append, List.length_cons, List.length_nil]
    omega
  generalize fields ℓ.mountpt ++ _ = rest at hlen
  rcases rest with _ | ⟨w₁, _ | ⟨w₂, _ | ⟨w₃, ws⟩⟩⟩
  · exact absurd hlen (by simp)
  · exact absurd hlen (by simp)
  · exact absurd hlen (by simp)
  · exact ⟨w₁, w₂, w₃, ws, rfl⟩

/-! ## The whole file -/

/-- Nothing but white space. -/
theorem scanMount_blank {u : List UInt8} (h : fields u = []) : scanMount u = none := by
  have hdrop : u.dropWhile isSpace = [] :=
    List.dropWhile_eq_nil_iff.mpr (words_eq_nil_iff.mp h)
  rw [scanMount, scanString, hdrop]
  rfl

/-- The loop, from the beginning of a line on. `u` is what an earlier call of `sscanf` has left of
the line before: there is no field in it, so the next call begins with the line. -/
theorem mountedLoop_lines {device : List UInt8} (hlen : device.length < 256) :
    ∀ (lines : List MountLine) (u : List UInt8) (fuel : ℕ), fields u = [] →
      ReadsInStep device lines → lines.length < fuel →
      ∃ b, mountedLoop device fuel (u ++ mountsContent lines) = some b ∧
        (b = true ↔ ∃ ℓ ∈ lines, ℓ.dev = device) := by
  intro lines
  induction lines with
  | nil =>
    intro u fuel hu _ hfuel
    obtain ⟨fuel, rfl⟩ := Nat.exists_eq_add_one_of_ne_zero (Nat.ne_of_gt hfuel)
    refine ⟨false, ?_, by simp⟩
    rw [mountedLoop, mountsContent, List.flatMap_nil, List.append_nil, scanMount_blank hu]
  | cons ℓ lines ih =>
    intro u fuel hu hstep hfuel
    obtain ⟨fuel, rfl⟩ := Nat.exists_eq_add_one_of_ne_zero (Nat.ne_of_gt (Nat.zero_lt_of_lt hfuel))
    have hcontent : u ++ mountsContent (ℓ :: lines) =
        (u ++ ℓ.body) ++ 0x0A :: mountsContent lines := by
      rw [mountsContent, List.flatMap_cons, mountsContent]
      simp only [List.append_assoc, List.singleton_append]
    have hc : isSpace 0x0A = true := by decide
    have hfields : fields (u ++ ℓ.body) = fields ℓ.body :=
      words_delims_append (words_eq_nil_iff.mp hu) _
    rw [hcontent, mountedLoop]
    by_cases hmatch : ℓ.dev = device
    · -- the record begins with the line, and that is enough
      have hnamed := hstep.1 hmatch
      obtain ⟨w₁, w₂, w₃, ws, hwords⟩ := hnamed.fields_body
      obtain ⟨r, u', extra, hscan, hdev, -⟩ :=
        scanMount_words (mountsContent lines) hc (hfields.trans hwords)
      have hread : cstr r.dev = device := by
        rw [hdev, hmatch, List.take_of_length_le (Nat.le_of_lt_succ hlen), ← hmatch]
        exact cstr_eq_self hnamed.noNul
      rw [hscan]
      dsimp only
      rw [if_pos hread]
      exact ⟨true, rfl, iff_of_true rfl ⟨ℓ, List.mem_cons_self, hmatch⟩⟩
    · obtain ⟨hdark, hfits, hother, hrest⟩ := hstep.2 hmatch
      obtain ⟨r, u', hscan, hdev, hleft⟩ :=
        scanMount_line ℓ (mountsContent lines) (hfields.trans hdark.fields_body)
      have hread : cstr r.dev ≠ device := by
        rwa [hdev, List.take_of_length_le hfits.dev]
      -- nothing of the line is left over, so the next record begins with the next line
      have hblank : fields (u' ++ [0x0A]) = [] := by
        rw [fields, words_delims_append (words_eq_nil_iff.mp (hleft.mpr hfits))]
        decide
      obtain ⟨b, hloop, hb⟩ := ih (u' ++ [0x0A]) fuel hblank hrest (Nat.lt_of_succ_lt_succ hfuel)
      rw [List.append_assoc, List.singleton_append] at hloop
      rw [hscan]
      dsimp only
      rw [if_neg hread]
      exact ⟨b, hloop, by rw [hb, List.exists_mem_cons_iff, or_iff_right hmatch]⟩

/-! ## The loop ends -/

theorem length_scanMount_lt {stream rest : List UInt8} {r : MountRecord}
    (h : scanMount stream = some (r, rest)) : rest.length < stream.length := by
  obtain ⟨⟨dev, s₁⟩, h₁, h⟩ := Option.bind_eq_some_iff.mp h
  obtain ⟨⟨mountpt, s₂⟩, h₂, h⟩ := Option.bind_eq_some_iff.mp h
  obtain ⟨⟨fstype, s₃⟩, h₃, h⟩ := Option.bind_eq_some_iff.mp h
  obtain ⟨⟨opts, s₄⟩, h₄, h⟩ := Option.map_eq_some_iff.mp h
  obtain ⟨-, rfl⟩ := Prod.mk.inj h
  have hnumbers : (scanNumbers s₄).length ≤ s₄.length := by
    rw [scanNumbers]
    split
    · exact (length_scanDecimal_le _).trans (length_scanDecimal_le _)
    · exact length_scanDecimal_le _
  have hlt₁ := length_scanString_lt (by decide) h₁
  have hlt₂ := length_scanString_lt (by decide) h₂
  have hlt₃ := length_scanString_lt (by decide) h₃
  have hlt₄ := length_scanString_lt (by decide) h₄
  dsimp only at *
  omega

/-- Whatever is in the file, the loop ends. -/
theorem mountedLoop_returns (device : List UInt8) :
    ∀ (fuel : ℕ) (stream : List UInt8), stream.length < fuel →
      ∃ b, mountedLoop device fuel stream = some b := by
  intro fuel
  induction fuel with
  | zero => exact fun stream h => absurd h (Nat.not_lt_zero _)
  | succ fuel ih =>
    intro stream h
    rw [mountedLoop]
    cases hscan : scanMount stream with
    | none => exact ⟨false, rfl⟩
    | some p =>
      have hlt : p.2.length < stream.length := length_scanMount_lt hscan
      dsimp only
      split
      · exact ⟨true, rfl⟩
      · exact ih _ (Nat.lt_of_lt_of_le hlt (Nat.le_of_lt_succ h))

/-! ## The theorem -/

/-- **Mounted or not**, as long as the scan stays in step with the lines. `fgets` cuts long lines
and `sscanf` cuts long fields, and where that happens the scan may compare something else. -/
theorem isDeviceMounted_iff (lines : List MountLine) (device : List UInt8)
    (hlen : device.length < 256) (hstep : ReadsInStep device lines) (fuel : ℕ)
    (hfuel : lines.length < fuel) :
    ∃ b, isDeviceMounted fuel (some (mountsContent lines)) device = some b ∧
      (b = true ↔ ∃ ℓ ∈ lines, ℓ.dev = device) :=
  mountedLoop_lines hlen lines [] fuel rfl hstep hfuel

/-- The system that `storaged` asks, with what it can read of `/proc/self/mounts`. -/
def systemWithMounts (sys : StorageSystem) (mounts : List UInt8) : StorageSystem :=
  { sys with
    isDeviceMounted := fun device =>
      (isDeviceMounted (mounts.length + 1) (some mounts) device).getD false }

theorem length_le_mountsContent (lines : List MountLine) :
    lines.length ≤ (mountsContent lines).length := by
  induction lines with
  | nil => exact le_rfl
  | cons ℓ lines ih =>
    rw [mountsContent, List.flatMap_cons, ← mountsContent, List.length_append, List.length_append,
      List.length_singleton, List.length_cons]
    omega

/-- Then no mounted device is approved for formatting. -/
theorem Approvable.not_mounted {sys : StorageSystem} {lines : List MountLine}
    {opts : List FormatOption} {device : List UInt8}
    (h : Approvable (systemWithMounts sys (mountsContent lines)) opts device)
    (hlen : device.length < 256) (hstep : ReadsInStep device lines) :
    ∀ ℓ ∈ lines, ℓ.dev ≠ device := by
  intro ℓ hℓ hdev
  obtain ⟨b, hb, hmounted⟩ := mountedLoop_lines hlen lines []
    ((mountsContent lines).length + 1) rfl hstep (Nat.lt_succ_of_le (length_le_mountsContent lines))
  have hloop : isDeviceMounted ((mountsContent lines).length + 1) (some (mountsContent lines))
      device = some b := hb
  have hfalse : (isDeviceMounted ((mountsContent lines).length + 1) (some (mountsContent lines))
      device).getD false = false := h.unmounted
  rw [hloop, hmounted.mpr ⟨ℓ, hℓ, hdev⟩] at hfalse
  exact absurd hfalse (by decide)

/-- A line of `/proc/self/mounts` with single blanks and the numbers `0 0`. -/
def mountLine (dev mountpt fstype opts : List UInt8)
    (h : ∀ w ∈ [dev, mountpt, fstype, opts], IsField w) : MountLine where
  dev := dev
  mountpt := mountpt
  fstype := fstype
  opts := opts
  freq := lit "0"
  passno := lit "0"
  gap := fun _ => lit " "
  isField := h
  isNumber := ⟨by decide, by decide⟩
  isGap := fun _ => ⟨by decide, List.forall_mem_singleton.mpr (Or.inl rfl)⟩

/-- The line of a disk. -/
def diskLine : MountLine :=
  mountLine (lit "/dev/sda1") (lit "/mnt") (lit "ext4") (lit "rw") (by decide)

/-- The line of an overlay whose options are three hundred bytes long. -/
def overlayLine : MountLine :=
  mountLine (lit "overlay") (lit "/") (lit "overlay") (List.replicate 300 0x61)
    (by decide +kernel)

/-- In front of the overlay is a line that fits; its own may be as long as it is. -/
theorem isDeviceMounted_iff_overlay :
    isDeviceMounted 3 (some (mountsContent [diskLine, overlayLine])) (lit "overlay") =
      some true := by
  have hdisk : diskLine.dev ≠ lit "overlay" := by decide
  have hoverlay : overlayLine.dev = lit "overlay" := rfl
  obtain ⟨b, hb, hmounted⟩ := isDeviceMounted_iff [diskLine, overlayLine] (lit "overlay")
    (by decide)
    ⟨fun h => absurd h hdisk, fun _ => ⟨by decide +kernel, ⟨by decide, by decide, by decide,
      by decide⟩, by decide +kernel,
      ⟨fun _ => ⟨by decide +kernel, by decide, overlayLine.mountpt, List.mem_cons_self,
        0x2F, List.mem_singleton_self _, by decide⟩, fun h => absurd hoverlay h⟩⟩⟩
    3 (by decide)
  rw [hb, hmounted.mpr ⟨overlayLine, List.mem_cons_of_mem _ List.mem_cons_self, hoverlay⟩]

/-- The line behind an overlay with long options is missed. -/
theorem overlay_hides_disk :
    isDeviceMounted 4 (some (mountsContent [overlayLine, diskLine])) (lit "/dev/sda1") = some false ∧
      (lit "/dev/sda1").length < 256 ∧ (∀ b ∈ lit "/dev/sda1", isSpace b = false) ∧
      ∃ ℓ ∈ [overlayLine, diskLine], ℓ.dev = lit "/dev/sda1" := by
  refine ⟨by decide +kernel, by decide, by decide +kernel, diskLine, ?_, rfl⟩
  exact List.mem_cons_of_mem _ List.mem_cons_self

end WaluOs
