import PeerDma.Bench.Basic
import PeerDma.World.Requests

/-!
# Which files may be copied from

The eight conditions of the direct path are tested in order, and the first that fails is the reason
for which the file is refused. Looking at a file, probing it and copying from it ask the same
question, and get the same answer.

* `File.Eligible`, `File.Fails`: the conditions, and what goes wrong with each of them.
* `File.Passes`, `File.Refused`: the first of them are met; the next one is not.
* `File.classify_eq_ok_iff`, `File.classify_eq_error_iff`: the verdict on a file.
* `World.Rejects`: the verdict on a descriptor.
* `World.verdicts_agree`: the verdict is the same for all who ask.
-/

namespace PeerDma

/-! ## The conditions -/

/-- What a filesystem says of itself is true of a supported one: the magic number, the name, and the
module that it belongs to, which is the one loaded for that filesystem. -/
structure FilesystemIdentity.Genuine (i : FilesystemIdentity)
    (provider : Filesystem → Option ModuleId) (kind : Filesystem) : Prop where
  magic : i.magic = kind.magic
  name : i.name = kind.name
  owner : ∃ owner, i.owner = some owner ∧ provider kind = some owner

theorem FilesystemIdentity.is_iff {i : FilesystemIdentity}
    {provider : Filesystem → Option ModuleId} {kind : Filesystem} :
    i.is kind (provider kind) ↔ i.Genuine provider kind := by
  simp only [FilesystemIdentity.is, Bool.and_eq_true, beq_iff_eq, Option.isSome_iff_exists]
  constructor
  · rintro ⟨⟨⟨hmagic, hname⟩, owner, howner⟩, hloaded⟩
    exact ⟨hmagic, hname, owner, howner, by rw [← hloaded, howner]⟩
  · rintro ⟨hmagic, hname, owner, howner, hloaded⟩
    exact ⟨⟨⟨hmagic, hname⟩, owner, howner⟩, by rw [howner, hloaded]⟩

/-- No two supported filesystems have the same magic number. -/
theorem FilesystemIdentity.Genuine.unique {i : FilesystemIdentity}
    {provider : Filesystem → Option ModuleId} {kind other : Filesystem}
    (h : i.Genuine provider kind) (h' : i.Genuine provider other) : kind = other := by
  have hmagic : kind.magic = other.magic := h.magic.symm.trans h'.magic
  cases kind <;> cases other <;> first | rfl | cases hmagic

namespace File

section

variable (file : File) (pageSize : Nat) (provider : Filesystem → Option ModuleId)

/-- A file on a filesystem meets all eight conditions. -/
structure Eligible (kind : Filesystem) : Prop where
  readable : file.mode.canRead
  filesystem : file.identity.Genuine provider kind
  size : pageSize ≤ file.size
  blockSize : file.blockSize = pageSize
  major : file.device.major = 259
  name : isNamespaceName file.device.name
  identify : file.device.identify ≠ none
  identified : ∃ number, file.device.identify = some (.ok number)

/-- A condition fails, given by its number, and the reason that goes with it. -/
inductive Fails : Nat → Refusal → Prop where
  | readable (h : ¬file.mode.canRead) : Fails 1 .noReadPermission
  | filesystem (h : ∀ kind, ¬file.identity.Genuine provider kind) :
      Fails 2 .filesystemNotSupported
  | size (h : file.size < pageSize) : Fails 3 (.fileTooSmall file.size)
  | blockSize (h : file.blockSize ≠ pageSize) : Fails 4 (.blockSizeMismatch file.blockSize)
  | major (h : file.device.major ≠ 259) : Fails 5 (.notExtendedDevice file.device.major)
  | name (h : ¬isNamespaceName file.device.name) : Fails 6 .deviceNotNvme
  | identify (h : file.device.identify = none) : Fails 7 .noIdentifyOperation
  | identified {code : Int} (h : file.device.identify = some (.error code)) :
      Fails 8 (.identifyFailed code)

/-- The first `n` conditions do not fail. -/
def Passes (n : Nat) : Prop := ∀ m ≤ n, ∀ reason, ¬file.Fails pageSize provider m reason

/-- The first condition that fails goes with the reason. -/
def Refused (reason : Refusal) : Prop :=
  ∃ n, file.Passes pageSize provider n ∧ file.Fails pageSize provider (n + 1) reason

end

variable {file : File} {pageSize : Nat} {provider : Filesystem → Option ModuleId} {n : Nat}
  {reason : Refusal} {kind : Filesystem}

theorem passes_zero : file.Passes pageSize provider 0 := by
  intro m hm reason hfails
  cases hfails <;> omega

theorem Passes.succ (h : file.Passes pageSize provider n)
    (hnext : ∀ reason, ¬file.Fails pageSize provider (n + 1) reason) :
    file.Passes pageSize provider (n + 1) := by
  intro m hm
  rcases Nat.lt_or_eq_of_le hm with hlt | rfl
  · exact h m (Nat.le_of_lt_succ hlt)
  · exact hnext

theorem Fails.reason_unique {other : Refusal} (h : file.Fails pageSize provider n reason)
    (h' : file.Fails pageSize provider n other) : reason = other := by
  cases h <;> cases h' <;> try rfl
  next code h code' h' =>
    rw [h] at h'
    cases h'
    rfl

theorem Refused.unique {other : Refusal} (h : file.Refused pageSize provider reason)
    (h' : file.Refused pageSize provider other) : reason = other := by
  obtain ⟨n, hpasses, hfails⟩ := h
  obtain ⟨m, hpasses', hfails'⟩ := h'
  -- Each of the two conditions is met if the other one comes later.
  have hle : n ≤ m := Nat.le_of_not_lt fun hlt => hpasses (m + 1) hlt other hfails'
  have hge : m ≤ n := Nat.le_of_not_lt fun hlt => hpasses' (n + 1) hlt reason hfails
  obtain rfl := Nat.le_antisymm hle hge
  exact hfails.reason_unique hfails'

theorem Eligible.not_fails (h : file.Eligible pageSize provider kind) :
    ¬file.Fails pageSize provider n reason := by
  intro hfails
  cases hfails with
  | readable hf => exact hf h.readable
  | filesystem hf => exact hf kind h.filesystem
  | size hf => exact absurd h.size (Nat.not_le_of_lt hf)
  | blockSize hf => exact hf h.blockSize
  | major hf => exact hf h.major
  | name hf => exact hf h.name
  | identify hf => exact h.identify hf
  | identified hf =>
    obtain ⟨number, hnumber⟩ := h.identified
    cases hf.symm.trans hnumber

/-! ## The verdict on a file -/

/-- The verdict: a filesystem, with all conditions met, or the reason of the first that fails. -/
theorem classify_sound (file : File) (pageSize : Nat) (provider : Filesystem → Option ModuleId) :
    match file.classify pageSize provider with
    | .ok kind => file.Eligible pageSize provider kind
    | .error reason => file.Refused pageSize provider reason := by
  unfold classify
  by_cases hread : file.mode.canRead
  case neg => simpa [hread] using ⟨0, passes_zero, .readable hread⟩
  have h₁ : file.Passes pageSize provider 1 := passes_zero.succ fun
    | _, .readable h => h hread
  rw [if_neg (by simpa using hread)]
  cases hfind : Filesystem.all.find? fun kind => file.identity.is kind (provider kind) with
  | none =>
    refine ⟨1, h₁, .filesystem fun kind hgenuine => ?_⟩
    have hmem : kind ∈ Filesystem.all := by cases kind <;> decide
    exact List.find?_eq_none.1 hfind kind hmem (FilesystemIdentity.is_iff.2 hgenuine)
  | some kind =>
    have hgenuine : file.identity.Genuine provider kind :=
      FilesystemIdentity.is_iff.1 (by simpa using List.find?_some hfind)
    have h₂ := h₁.succ fun | _, .filesystem h => h kind hgenuine
    dsimp only
    by_cases hsize : file.size < pageSize
    · rw [if_pos hsize]
      exact ⟨2, h₂, .size hsize⟩
    have h₃ := h₂.succ fun | _, .size h => hsize h
    rw [if_neg hsize]
    by_cases hblock : file.blockSize ≠ pageSize
    · rw [if_pos hblock]
      exact ⟨3, h₃, .blockSize hblock⟩
    have h₄ := h₃.succ fun | _, .blockSize h => hblock h
    rw [if_neg hblock]
    by_cases hmajor : file.device.major ≠ extendedMajor
    · rw [if_pos hmajor]
      exact ⟨4, h₄, .major hmajor⟩
    have h₅ := h₄.succ fun | _, .major h => hmajor h
    rw [if_neg hmajor]
    by_cases hname : isNamespaceName file.device.name
    case neg => simpa [hname] using ⟨5, h₅, .name hname⟩
    have h₆ := h₅.succ fun | _, .name h => h hname
    rw [if_neg (by simpa using hname)]
    cases hidentify : file.device.identify with
    | none => exact ⟨6, h₆, .identify hidentify⟩
    | some answer =>
      have h₇ := h₆.succ fun | _, .identify h => nomatch hidentify.symm.trans h
      cases answer with
      | error code => exact ⟨7, h₇, .identified hidentify⟩
      | ok number =>
        exact ⟨hread, hgenuine, Nat.le_of_not_lt hsize, Decidable.not_not.1 hblock,
          Decidable.not_not.1 hmajor, hname, by simp [hidentify], number, hidentify⟩

theorem classify_eq_ok_iff : file.classify pageSize provider = .ok kind ↔
    file.Eligible pageSize provider kind := by
  have hsound := file.classify_sound pageSize provider
  constructor
  · intro h
    rw [h] at hsound
    exact hsound
  · intro h
    cases hclassify : file.classify pageSize provider with
    | error reason =>
      rw [hclassify] at hsound
      obtain ⟨n, -, hfails⟩ := hsound
      exact absurd hfails h.not_fails
    | ok other =>
      rw [hclassify] at hsound
      rw [hsound.filesystem.unique h.filesystem]

theorem classify_eq_error_iff : file.classify pageSize provider = .error reason ↔
    file.Refused pageSize provider reason := by
  have hsound := file.classify_sound pageSize provider
  constructor
  · intro h
    rw [h] at hsound
    exact hsound
  · intro h
    cases hclassify : file.classify pageSize provider with
    | error other =>
      rw [hclassify] at hsound
      rw [hsound.unique h]
    | ok kind =>
      rw [hclassify] at hsound
      obtain ⟨n, -, hfails⟩ := h
      exact absurd hfails hsound.not_fails

end File

/-! ## The verdict on a descriptor -/

variable {ε : Type} (p : Platform ε)

namespace World

/-- A descriptor is rejected with an error: there is no file behind it, or one that is refused. -/
inductive Rejects (w : World ε) (descriptor : Int) : Error → Prop where
  | closed {e : Error} (h : p.openFile descriptor w.ambient.outside = .error e) :
      Rejects w descriptor e
  | refused {file : File} {reason : Refusal}
      (h : p.openFile descriptor w.ambient.outside = .ok file)
      (refused : file.Refused w.core.config.hostPageSize (p.provider · w.ambient.outside) reason) :
      Rejects w descriptor (.unsupported reason)

/-- A request hinges on the file behind a descriptor: it reads from that file, and nothing else is
wrong with it. Its chunks are ranges that add up, its region is registered, and they fit into it. -/
structure HingesOn (w : World ε) (order : CopyOrder) (descriptor : Int) : Prop where
  reads : Chunk.needsFile order.chunks
  descriptor : order.descriptor = some descriptor
  fits : ∃ total use start, Chunk.totalLength order.chunks = .ok total ∧
    w.core.mappings.table.find? order.handle = some use ∧
    use.region.window order.offset total = .ok start

variable {p} {w : World ε} {descriptor : Int} {e : Error}

/-- Opening a file for the direct path. -/
theorem openChecked_sound (w : World ε) (descriptor : Int) :
    match (w.ambient.openChecked p w.core.config.hostPageSize descriptor).1 with
    | .ok file => p.openFile descriptor w.ambient.outside = .ok file ∧
        ∃ kind, file.Eligible w.core.config.hostPageSize (p.provider · w.ambient.outside) kind
    | .error e => w.Rejects p descriptor e := by
  unfold Ambient.openChecked Ambient.checkFile
  cases hopen : p.openFile descriptor w.ambient.outside with
  | error e => exact .closed hopen
  | ok file =>
    dsimp only
    cases hclassify : file.classify w.core.config.hostPageSize (p.provider · w.ambient.outside) with
    | error reason => exact .refused hopen (File.classify_eq_error_iff.1 hclassify)
    | ok kind => exact ⟨rfl, kind, File.classify_eq_ok_iff.1 hclassify⟩

/-- Opening a file for the direct path fails exactly if the descriptor is rejected. -/
theorem openChecked_error_iff :
    (w.ambient.openChecked p w.core.config.hostPageSize descriptor).1 = .error e ↔
      w.Rejects p descriptor e := by
  have hsound := openChecked_sound (p := p) w descriptor
  constructor
  · intro h
    rw [h] at hsound
    exact hsound
  · intro h
    unfold Ambient.openChecked Ambient.checkFile
    cases h with
    | closed h => rw [h]
    | refused h hrefused =>
      rw [h]
      dsimp only
      rw [File.classify_eq_error_iff.2 hrefused]

theorem checkFile_error_iff :
    (w.checkFile p descriptor).1 = .error e ↔ w.Rejects p descriptor e := by
  rw [← openChecked_error_iff]
  unfold checkFile liftAmbient
  dsimp only
  cases (w.ambient.openChecked p w.core.config.hostPageSize descriptor).1 <;> simp [Except.map]

theorem probe_error_iff {visit : PageProbe → Ambient ε → Ambient ε} {offset length : Nat} :
    (w.probe p visit descriptor offset length).1 = .error e ↔ w.Rejects p descriptor e := by
  rw [← openChecked_error_iff]
  unfold probe liftAmbient
  dsimp only
  generalize w.ambient.openChecked p w.core.config.hostPageSize descriptor = answer
  obtain ⟨_ | _, a⟩ := answer <;> simp

/-- A request that hinges on a file is admitted if the file is, and gives it to its task. -/
theorem HingesOn.prepare {order : CopyOrder} (h : w.HingesOn order descriptor) :
    match (w.ambient.openChecked p w.core.config.hostPageSize descriptor).1 with
    | .ok file => ∃ task w₁, w.prepare p order = (.ok task, w₁) ∧ task.holds.file = some file
    | .error e => (w.prepare p order).1 = .error e := by
  obtain ⟨hreads, hdescriptor, total, use, start, htotal, hfind, hwindow⟩ := h
  unfold World.prepare acquire Mappings.acquire? window sourceFile
  rw [htotal]
  dsimp only
  rw [hfind]
  dsimp only [Option.map_some]
  rw [hwindow]
  dsimp only
  rw [if_pos hreads, hdescriptor]
  unfold liftAmbient
  dsimp only [setMappings]
  generalize w.ambient.openChecked p w.core.config.hostPageSize descriptor = answer
  obtain ⟨e | file, a⟩ := answer
  · rfl
  · exact ⟨_, _, rfl, rfl⟩

/-- A request that hinges on a file is rejected exactly if its descriptor is. -/
theorem HingesOn.prepare_error_iff {order : CopyOrder} (h : w.HingesOn order descriptor) :
    (w.prepare p order).1 = .error e ↔ w.Rejects p descriptor e := by
  have hprepare := h.prepare (p := p)
  rw [← openChecked_error_iff]
  cases hopen : (w.ambient.openChecked p w.core.config.hostPageSize descriptor).1 with
  | error e' =>
    rw [hopen] at hprepare
    rw [hprepare]
    simp
  | ok file =>
    rw [hopen] at hprepare
    obtain ⟨task, w₁, hprepare, -⟩ := hprepare
    rw [hprepare]
    simp

theorem copy_rejected {order : CopyOrder} (h : (w.prepare p order).1 = .error e) :
    (w.copyAsync p order).1 = .error e ∧ (w.copy p order).1 = .returned (.error e) := by
  have hasync : (w.copyAsync p order).1 = .error e := by
    unfold copyAsync
    generalize w.prepare p order = answer at h
    obtain ⟨answer, w₁⟩ := answer
    obtain rfl : answer = .error e := h
    rfl
  refine ⟨hasync, ?_⟩
  unfold copy
  generalize w.copyAsync p order = answer at hasync
  obtain ⟨answer, w₁⟩ := answer
  obtain rfl : answer = .error e := hasync
  rfl

/-- A descriptor that is not rejected is that of a file which meets all conditions, and the task of
a request that reads from it gets the file. -/
theorem HingesOn.admitted {order : CopyOrder} (h : w.HingesOn order descriptor)
    (hnot : ∀ e, ¬w.Rejects p descriptor e) :
    ∃ task w₁ file kind, w.prepare p order = (.ok task, w₁) ∧ task.holds.file = some file ∧
      p.openFile descriptor w.ambient.outside = .ok file ∧
      file.Eligible w.core.config.hostPageSize (p.provider · w.ambient.outside) kind := by
  have hsound := openChecked_sound (p := p) w descriptor
  have hprepare := h.prepare (p := p)
  cases hopen : (w.ambient.openChecked p w.core.config.hostPageSize descriptor).1 with
  | error e => exact absurd (openChecked_error_iff.1 hopen) (hnot e)
  | ok file =>
    rw [hopen] at hsound hprepare
    obtain ⟨hfile, kind, heligible⟩ := hsound
    obtain ⟨task, w₁, hprepare, hholds⟩ := hprepare
    exact ⟨task, w₁, file, kind, hprepare, hholds, hfile, heligible⟩

end World

/-- **The verdict on a file.**

* A file passes for one on a filesystem if and only if it meets all eight conditions. Else the
  reason is that of the first condition that fails, and what is the case with the later ones makes
  no difference.
* A descriptor is rejected by `checkFile`, by `probe` and by a request that hinges on it,
  asynchronous or not, with the same error: that of opening it, or the reason why its file is
  refused. If it is not rejected, the request is admitted, and its task gets the file. -/
theorem World.verdicts_agree :
    (∀ (file : File) (pageSize : Nat) (provider : Filesystem → Option ModuleId),
      (∀ kind, file.classify pageSize provider = .ok kind ↔
        file.Eligible pageSize provider kind) ∧
      (∀ reason, file.classify pageSize provider = .error reason ↔
        file.Refused pageSize provider reason) ∧
      ∀ n reason, file.Passes pageSize provider n → file.Fails pageSize provider (n + 1) reason →
        ∀ (other : File) (pageSize' : Nat) (provider' : Filesystem → Option ModuleId),
          (∀ m ≤ n + 1, ∀ r, other.Fails pageSize' provider' m r ↔
            file.Fails pageSize provider m r) →
          other.classify pageSize' provider' = .error reason) ∧
    ∀ (w : World ε) (descriptor : Int) (e : Error),
      ((w.checkFile p descriptor).1 = .error e ↔ w.Rejects p descriptor e) ∧
      (∀ visit offset length,
        (w.probe p visit descriptor offset length).1 = .error e ↔ w.Rejects p descriptor e) ∧
      ∀ order, w.HingesOn order descriptor →
        ((w.prepare p order).1 = .error e ↔ w.Rejects p descriptor e) ∧
        (w.Rejects p descriptor e →
          (w.copyAsync p order).1 = .error e ∧ (w.copy p order).1 = .returned (.error e)) ∧
        ((∀ e, ¬w.Rejects p descriptor e) → ∃ task w₁ file kind,
          w.prepare p order = (.ok task, w₁) ∧ task.holds.file = some file ∧
          p.openFile descriptor w.ambient.outside = .ok file ∧
          file.Eligible w.core.config.hostPageSize (p.provider · w.ambient.outside) kind) := by
  refine ⟨fun file pageSize provider => ⟨fun kind => File.classify_eq_ok_iff,
    fun reason => File.classify_eq_error_iff, fun n reason hpasses hfails other pageSize' provider'
      hsame => ?_⟩, fun w descriptor e => ⟨checkFile_error_iff, fun visit offset length =>
    probe_error_iff, fun order hinges => ?_⟩⟩
  · refine File.classify_eq_error_iff.2
      ⟨n, fun m hm r hr => ?_, (hsame _ (Nat.le_refl _) _).2 hfails⟩
    exact hpasses m hm r ((hsame m (Nat.le_succ_of_le hm) r).1 hr)
  · exact ⟨hinges.prepare_error_iff, fun h => copy_rejected (hinges.prepare_error_iff.2 h),
      hinges.admitted⟩

/-- A bench with one region and two files, each of 8 KiB: one on xfs, and one that looks as if it
were on ext4 and belongs to another module. -/
def Bench.withFiles : World Bench :=
  let lookalike : File := { plainFile .ext4 0x2000 with
    identity := ⟨0xEF53, "ext4", some ⟨0xBAD⟩⟩, blockSize := 512 }
  let disk := ((({} : Disk).install 3 ⟨plainFile .xfs 0x2000, []⟩).install 4 ⟨lookalike, []⟩)
  (World.map platform ⟨1⟩ ⟨0x10000⟩ 0x10000 ⟨.create {} {}, ⟨{ disk }, []⟩⟩).2

/-- The file that looks like one on ext4 is refused for its filesystem, although its block size
would not do either; the one on xfs is accepted. -/
theorem World.verdicts_agree_lookalike :
    let w := Bench.withFiles
    let order (descriptor : Int) : CopyOrder := ⟨⟨1⟩, some descriptor, 0, [.file 0x800 0x1000]⟩
    w.HingesOn (order 3) 3 ∧ w.HingesOn (order 4) 4 ∧
      (w.checkFile Bench.platform 4).1 = .error (.unsupported .filesystemNotSupported) ∧
      (w.copyAsync Bench.platform (order 4)).1 =
        .error (.unsupported .filesystemNotSupported) ∧
      (∃ task w₁, w.prepare Bench.platform (order 3) = (.ok task, w₁)) := by
  intro w order
  have hinges (descriptor : Int) : w.HingesOn (order descriptor) descriptor := by
    obtain ⟨use, huse⟩ := Option.isSome_iff_exists.1
      (show (w.core.mappings.table.find? ⟨1⟩).isSome from by decide +kernel)
    have hwindow : ((w.core.mappings.table.find? ⟨1⟩).map (·.region.window 0 0x1000)).map
        Except.toOption = some (some 0) := by decide +kernel
    rw [huse] at hwindow
    cases hin : use.region.window 0 0x1000 with
    | error fault => rw [Option.map_some, hin] at hwindow; cases hwindow
    | ok start => exact ⟨rfl, rfl, 0x1000, use, start, rfl, huse, hin⟩
  have hagree := (World.verdicts_agree Bench.platform).2 w
  have hrejects : w.Rejects Bench.platform 4 (.unsupported .filesystemNotSupported) := by
    refine .refused rfl ⟨1, File.passes_zero.succ fun | _, .readable h => h rfl,
      .filesystem fun kind hgenuine => ?_⟩
    obtain ⟨owner, howner, hloaded⟩ := hgenuine.owner
    obtain rfl := Option.some.inj howner
    cases kind <;> cases hloaded
  obtain ⟨hcheck, -, horders⟩ := hagree 4 (.unsupported .filesystemNotSupported)
  refine ⟨hinges 3, hinges 4, hcheck.2 hrejects, ((horders _ (hinges 4)).2.1 hrejects).1, ?_⟩
  obtain ⟨-, -, horders⟩ := hagree 3 .badDescriptor
  obtain ⟨task, w₁, -, -, hprepare, -⟩ := (horders _ (hinges 3)).2.2 fun e he => by
    have hok : (w.checkFile Bench.platform 3).1.isOk := by decide +kernel
    rw [(hagree 3 e).1.2 he] at hok
    cases hok
  exact ⟨task, w₁, hprepare⟩

end PeerDma
