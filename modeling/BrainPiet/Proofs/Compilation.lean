import BrainPiet.Proofs.Command.Reading
import BrainPiet.Proofs.Command.Target
import BrainPiet.Proofs.Dimensions
import BrainPiet.Proofs.FileTree
import BrainPiet.Proofs.Scaling

/-!
# A compilation does all or nothing

A compilation that is refused changes no file. One that is not changes the file that the output
names and no other, and that file then holds the picture of what the source was before. The program
reports this as a success if it can print where the picture went. This is said of every store that
does what stores do, and of every imaging library that is faithful for the picture asked for.
-/

namespace BrainPiet

variable {m : Type → Type} [Monad m] {lib : Imaging} {store : Store m}

/-- The bytes of a source: those of the input, or those of the file that its path leads to. -/
inductive Store.Meaning.Holds (S : store.Meaning) (s : S.State) : Phrase → List UInt8 → Prop
  | input : Holds S s Compile.inputPath (S.run store.readInput s).1
  | file {path : Phrase} {file : S.File} {bytes : List UInt8} (hpath : path ≠ Compile.inputPath)
    (hfind : (S.files s).find path = some file) (hdata : (S.files s).data file = some bytes) :
    Holds S s path bytes

/-- The library is faithful for the picture of what a source holds. -/
def Serves (lib : Imaging) (S : store.Meaning) (s : S.State) (source : Phrase)
    (size : Option Nat) : Prop :=
  ∀ bytes grid n, S.Holds s source bytes → translate (Byte.text bytes) = .ok grid →
    size = some n → 0 < n → lib.Faithful grid.width (grid.height + 1) n

/-- The picture of what a source holds is in the file that a path leads to, and nothing else
changes. -/
def Compiled (lib : Imaging) (S : store.Meaning) (source path : Phrase) (n : Nat)
    (s s' : S.State) : Prop :=
  ∃ bytes grid data file, S.Holds s source bytes ∧ translate (Byte.text bytes) = .ok grid ∧
    (∀ name, ∃ image, lib.read name data = .ok image ∧ grid.ShownBy lib image n) ∧
    (S.files s').find path = some file ∧
    (∀ before, (S.files s).find path = some before → before = file) ∧
    (S.files s').data file = some data ∧
    ∀ other ≠ file, (S.files s').data other = (S.files s).data other

/-- Why a source cannot be compiled to a path. -/
inductive Refused (S : store.Meaning) (source path : Phrase) (size : Option Nat) (s : S.State) :
    Prop
  | size (h : ∀ n, size = some n → n = 0)
  | source {fault : FileFault} (hpath : source ≠ Compile.inputPath)
    (h : (S.run (store.read source) s).1 = .error fault)
  | program {bytes : List UInt8} {reason : Malformed} (hbytes : S.Holds s source bytes)
    (h : Source.parse (Byte.text bytes) = .error reason)
  /-- The path cannot be opened once the source has been read. -/
  | target {fault : FileFault}
    (h : (S.run (store.create path) (S.run (Compile.readSource store source) s).2).1 = .error fault)

namespace Compile

variable (S : store.Meaning) (s : S.State)

/-- A source is read and no file changes, or its file cannot be read. -/
theorem run_readSource (path : Phrase) :
    let result := S.run (readSource store path) s
    S.files result.2 = S.files s ∧
      ((∃ bytes, result.1 = .ok bytes ∧ S.Holds s path bytes) ∨
        ∃ fault, result.1 = .error fault ∧ path ≠ inputPath ∧
          (S.run (store.read path) s).1 = .error fault) := by
  intro result
  by_cases hpath : path = inputPath
  · subst hpath
    have hresult : result = (.ok (S.run store.readInput s).1, (S.run store.readInput s).2) := by
      simp only [result, readSource, if_pos, S.run_bind, S.run_pure]
    rw [hresult]
    exact ⟨S.readInput_keeps s, .inl ⟨_, rfl, .input⟩⟩
  · have hresult : result = S.run (store.read path) s := by
      simp only [result, readSource, if_neg hpath]
    rw [hresult]
    refine ⟨S.read_keeps path s, ?_⟩
    cases hread : (S.run (store.read path) s).1 with
    | error fault => exact .inr ⟨fault, rfl, hpath, rfl⟩
    | ok bytes =>
      obtain ⟨file, hfind, hdata⟩ := S.read_holds path s bytes hread
      exact .inl ⟨bytes, rfl, .file hpath hfind hdata⟩

/-- A file is written where its path leads to, or it cannot be opened and no file changes. -/
theorem run_writeFile (path : Phrase) (data : List UInt8) :
    let result := S.run (writeFile store path data) s
    (∃ fault, result.1 = .error fault ∧ (S.run (store.create path) s).1 = .error fault ∧
      S.files result.2 = S.files s) ∨
    result.1 = .ok () ∧ ∃ file, (S.files result.2).find path = some file ∧
      (∀ before, (S.files s).find path = some before → before = file) ∧
      (S.files result.2).data file = some data ∧
      ∀ other ≠ file, (S.files result.2).data other = (S.files s).data other := by
  intro result
  cases hcreate : (S.run (store.create path) s).1 with
  | error fault =>
    have hresult : result = (.error fault, (S.run (store.create path) s).2) := by
      simp only [result, writeFile, S.run_bind, hcreate, S.run_pure]
    rw [hresult]
    exact .inl ⟨fault, rfl, rfl, S.create_fails path s fault hcreate⟩
  | ok handle =>
    have hresult : result = S.run (store.write handle data) (S.run (store.create path) s).2 := by
      simp only [result, writeFile, S.run_bind, hcreate]
    rw [hresult]
    exact .inr (S.write_completes path s handle data hcreate)

/-- The picture of a source is made by a faithful library, unless the source is malformed. -/
theorem picture_cases {bytes : List UInt8} {n : Nat} (hn : 0 < n)
    (hlib : ∀ grid, translate (Byte.text bytes) = .ok grid →
      lib.Faithful grid.width (grid.height + 1) n) :
    (∃ grid data, translate (Byte.text bytes) = .ok grid ∧
      (∀ name, ∃ image, lib.read name data = .ok image ∧ grid.ShownBy lib image n) ∧
      picture lib bytes (.int n) = .ok (grid, data)) ∨
    ∃ reason, Source.parse (Byte.text bytes) = .error reason ∧
      picture lib bytes (.int n) = .error (.translate (.malformed reason)) := by
  cases hparse : Source.parse (Byte.text bytes) with
  | error reason =>
    have htranslate : translate (Byte.text bytes) = .error (.malformed reason) := by
      rw [translate, hparse]
    refine .inr ⟨reason, rfl, ?_⟩
    rw [picture, htranslate]
    rfl
  | ok code =>
    obtain ⟨grid, -, htranslate, -⟩ := exists_translate hparse
    obtain ⟨data, hfile, hread⟩ := grid.exists_file hn (hlib grid htranslate)
    refine .inl ⟨grid, data, htranslate, hread, ?_⟩
    refine bind_eq_ok_iff.mpr ⟨grid, ?_, bind_eq_ok_iff.mpr ⟨data, ?_, rfl⟩⟩
    · rw [htranslate]
      rfl
    · rw [hfile]
      rfl

/-- A file is compiled, or it is refused and no file changes. -/
theorem file_cases {source : Phrase} (path : Phrase) {n : Nat} (hn : 0 < n)
    (hlib : Serves lib S s source (some n)) :
    let result := S.run (file lib store source path (.int n)) s
    (∃ grid, result.1 = .ok grid ∧ Compiled lib S source path n s result.2) ∨
    ∃ fault, result.1 = .error fault ∧ S.files result.2 = S.files s ∧
      Refused S source path (some n) s := by
  intro result
  have hsize := Setting.codelSize_int hn
  have hread := run_readSource S s source
  rcases hmid : S.run (readSource store source) s with ⟨found, mid⟩
  simp only [hmid] at hread
  obtain ⟨hkept, ⟨bytes, rfl, hholds⟩ | ⟨fault, rfl, hpath, hread⟩⟩ := hread
  · rcases picture_cases hn fun grid hgrid ↦ hlib bytes grid n hholds hgrid rfl hn with
      ⟨grid, data, hgrid, himage, hpicture⟩ | ⟨reason, hparse, hpicture⟩
    · have hwrite := run_writeFile S mid path data
      rcases hlast : S.run (writeFile store path data) mid with ⟨written, last⟩
      simp only [hlast] at hwrite
      rcases hwrite with ⟨fault, rfl, hcreate, hsame⟩ | ⟨rfl, target, hfind, hbefore, hdata, hother⟩
      · have hresult : result = (.error (.file fault), last) := by
          simp only [result, file, hsize, S.run_bind, hmid, hpicture, hlast, S.run_pure]
        rw [hresult]
        exact .inr ⟨.file fault, rfl, hsame.trans hkept, .target (by rwa [hmid])⟩
      · have hresult : result = (.ok grid, last) := by
          simp only [result, file, hsize, S.run_bind, hmid, hpicture, hlast, S.run_pure]
        rw [hresult]
        rw [hkept] at hbefore hother
        exact .inl ⟨grid, rfl, bytes, grid, data, target, hholds, hgrid, himage, hfind, hbefore,
          hdata, hother⟩
    · have hresult : result = (.error (.translate (.malformed reason)), mid) := by
        simp only [result, file, hsize, S.run_bind, hmid, hpicture, S.run_pure]
      rw [hresult]
      exact .inr ⟨_, rfl, hkept, .program hholds hparse⟩
  · have hresult : result = (.error (.file fault), mid) := by
      simp only [result, file, hsize, S.run_bind, hmid, S.run_pure]
    rw [hresult]
    exact .inr ⟨.file fault, rfl, hkept, .source hpath hread⟩

end Compile

namespace Command

variable (S : store.Meaning) (s : S.State) {a : Arguments}

private theorem files_say (texts : List Phrase) :
    S.files (S.run (say store texts) s).2 = S.files s := by
  induction texts generalizing s with
  | nil => rw [say, S.run_pure]
  | cons text rest ih =>
    have hprint := S.print_keeps text s
    rw [say, S.run_bind]
    cases (S.run (store.print text) s).1 with
    | ok _ => rw [ih, hprint]
    | error fault => rw [S.run_pure, hprint]

private theorem run_complain (message : String) :
    (S.run (complain store message) s).1 = .exit 1 ∧
      S.files (S.run (complain store message) s).2 = S.files s := by
  rw [complain, S.run_bind, S.run_pure]
  exact ⟨rfl, S.warn_keeps _ s⟩

private theorem run_complainFile (fault : FileFault) :
    (S.run (complainFile store fault) s).1.status = 1 ∧
      S.files (S.run (complainFile store fault) s).2 = S.files s := by
  cases fault with
  | nullByte =>
    rw [complainFile, S.run_pure]
    exact ⟨rfl, rfl⟩
  | system number text path =>
    obtain ⟨hend, hfiles⟩ := run_complain S s _
    exact ⟨congrArg Ending.status hend, hfiles⟩

private theorem files_stop (reason : Stop) :
    S.files (S.run (stop store reason) s).2 = S.files s := by
  cases reason with
  | help form => exact files_say S s _
  | usage form problem =>
    rw [stop, S.run_bind, S.run_pure]
    exact S.warn_keeps _ s

private theorem status_usage (form : Form) (problem : String) :
    (S.run (stop store (.usage form problem)) s).1.status = 2 := by
  rw [stop, S.run_bind, S.run_pure]
  rfl

private theorem files_complainRun (fault : RunFault) :
    S.files (S.run (complainRun store fault) s).2 = S.files s := by
  unfold complainRun
  split
  · rw [S.run_pure]
  · rw [S.run_pure]
  · exact (run_complain S s _).2

private theorem files_runLoaded (p : Picture) (trace : Bool) (input : List UInt8) (limit : Nat) :
    S.files (S.run (runLoaded store p trace input limit) s).2 = S.files s := by
  unfold runLoaded
  split
  · split
    · exact files_complainRun S s _
    · exact files_say S s _
  · split
    · exact files_complainRun S s _
    · exact files_say S s _

private theorem files_runPicture (a : Arguments) (rows : List (List Rgb)) :
    S.files (S.run (runPicture store a rows) s).2 = S.files s := by
  unfold runPicture
  split
  · rw [S.run_pure]
  · split
    · rw [S.run_pure]
    · split
      · rw [S.run_pure]
      · split
        · exact files_complainRun S s _
        · rw [S.run_pure]
      · exact files_runLoaded S s _ _ _ _

/-- Running a picture changes no file. -/
theorem files_run (a : Arguments) : S.files (S.run (run lib store a) s).2 = S.files s := by
  have hread := S.read_keeps a.program s
  unfold run
  split
  · rw [S.run_pure]
  · rw [S.run_bind, ← hread]
    split
    · exact (run_complainFile S _ _).2
    · split
      · unfold complainImage
        split
        · exact (run_complain S _ _).2
        · rw [S.run_pure]
      · split
        · rw [S.run_pure]
        · exact files_runPicture S _ _ _

/-- Neither does any other command line that does not ask for a compilation. -/
theorem files_execute {argv : List Phrase} (h : ∀ a, read argv ≠ .ok (some (.compile, a))) :
    S.files (S.run (execute lib store argv) s).2 = S.files s := by
  unfold execute
  split
  · exact files_stop S s _
  · exact files_say S s _
  · next a hread => exact absurd hread (h a)
  · exact files_run S s _
  · exact files_say S s _

/-- A fault is reported, no file changes by that, and the program fails. -/
theorem run_compile_of_error {fault : CompileFault} {mid : S.State}
    (h : S.run (Compile.file lib store a.source (outPath a) a.size) s = (.error fault, mid)) :
    (S.run (compile lib store a) s).1.status ≠ 0 ∧
      S.files (S.run (compile lib store a) s).2 = S.files mid := by
  rw [compile, S.run_bind, h]
  cases fault with
  | file fault =>
    obtain ⟨hstatus, hfiles⟩ := run_complainFile S mid fault
    exact ⟨by simp only; omega, hfiles⟩
  | setting fault =>
    have hstatus := status_usage S mid .top fault.message
    exact ⟨by simp only; omega, files_stop S mid _⟩
  | raster fault =>
    simp only [S.run_pure]
    exact ⟨Nat.one_ne_zero, trivial⟩
  | translate fault =>
    obtain ⟨hend, hfiles⟩ := run_complain S mid ("Translation failed: " ++ fault.message)
    refine ⟨?_, hfiles⟩
    simp only [hend]
    decide

/-- It is said where a picture went, if that can be printed. -/
theorem run_compile_of_ok {grid : Grid} {mid : S.State}
    (h : S.run (Compile.file lib store a.source (outPath a) a.size) s = (.ok grid, mid)) :
    let result := S.run (compile lib store a) s
    S.files result.2 = S.files mid ∧
      (result.1 = .exit 0 ∧ (S.run (store.print (written (outPath a) grid)) mid).1 = .ok () ∨
      ∃ fault, result.1 = .breakdown (.print fault) ∧
        (S.run (store.print (written (outPath a) grid)) mid).1 = .error fault) := by
  intro result
  have hresult : result = S.run (say store [written (outPath a) grid]) mid := by
    simp only [result, compile, S.run_bind, h]
  rw [hresult]
  refine ⟨files_say S mid _, ?_⟩
  rw [say, S.run_bind]
  cases (S.run (store.print (written (outPath a) grid)) mid).1 with
  | ok _ =>
    refine .inl ⟨?_, rfl⟩
    simp only [say, S.run_pure]
  | error fault =>
    simp only [S.run_pure]
    exact .inr ⟨fault, rfl, rfl⟩

/-- How a compilation ends. -/
inductive Outcome (lib : Imaging) (S : store.Meaning) (source path : Phrase) (size : Option Nat)
    (s : S.State) (result : Ending × S.State) : Prop
  /-- It is refused, and no file changes. -/
  | refused (hstatus : result.1.status ≠ 0) (hfiles : S.files result.2 = S.files s)
    (h : Refused S source path size s)
  /-- The picture is written, and then it cannot be printed where it went. -/
  | unsaid {n : Nat} {grid : Grid} {fault : PrintFault} {mid : S.State} (hsize : size = some n)
    (hn : 0 < n) (h : Compiled lib S source path n s result.2)
    (hprint : (S.run (store.print (written path grid)) mid).1 = .error fault)
    (hend : result.1 = .breakdown (.print fault))
  /-- The picture is written, and it is printed where it went. -/
  | done {n : Nat} {grid : Grid} {mid : S.State} (hsize : size = some n) (hn : 0 < n)
    (h : Compiled lib S source path n s result.2)
    (hprint : (S.run (store.print (written path grid)) mid).1 = .ok ())
    (hstatus : result.1.status = 0)

private theorem exists_size_error (h : ∀ n, a.codelSize = some n → n = 0) :
    ∃ fault, a.size.codelSize = .error fault := by
  unfold Arguments.size
  cases hsize : a.codelSize with
  | none =>
    simp only [Setting.codelSize]
    split <;> exact ⟨_, rfl⟩
  | some n =>
    rw [h n hsize]
    simp only [Setting.codelSize]
    split <;> exact ⟨_, rfl⟩

/-- A compilation is carried out, or it is refused and no file changes. -/
theorem outcome_compile (hlib : Serves lib S s a.source a.codelSize) :
    Outcome lib S a.source (outPath a) a.codelSize s (S.run (compile lib store a) s) := by
  by_cases hsize : ∃ n, a.codelSize = some n ∧ 0 < n
  · obtain ⟨n, hsome, hn⟩ := hsize
    have hset : a.size = .int n := by rw [Arguments.size, hsome]
    have hfile := Compile.file_cases S s (outPath a) hn (hsome ▸ hlib)
    rcases hmid : S.run (Compile.file lib store a.source (outPath a) (.int n)) s with ⟨found, mid⟩
    rw [← hset] at hmid
    simp only [← hset, hmid] at hfile
    rcases hfile with ⟨grid, rfl, hcompiled⟩ | ⟨fault, rfl, hsame, hrefused⟩
    · obtain ⟨hfiles, hend⟩ := run_compile_of_ok S s hmid
      have hcompiled :
          Compiled lib S a.source (outPath a) n s (S.run (compile lib store a) s).2 := by
        unfold Compiled at hcompiled ⊢
        rwa [hfiles]
      rcases hend with ⟨hend, hprint⟩ | ⟨fault, hend, hprint⟩
      · exact .done hsome hn hcompiled hprint (congrArg Ending.status hend)
      · exact .unsaid hsome hn hcompiled hprint hend
    · obtain ⟨hstatus, hfiles⟩ := run_compile_of_error S s hmid
      exact .refused hstatus (hfiles.trans hsame) (hsome ▸ hrefused)
  · have hzero : ∀ n, a.codelSize = some n → n = 0 :=
      fun n hn ↦ Nat.eq_zero_of_not_pos fun hpos ↦ hsize ⟨n, hn, hpos⟩
    obtain ⟨fault, hbad⟩ := exists_size_error hzero
    have hmid : S.run (Compile.file lib store a.source (outPath a) a.size) s =
        (.error (.setting fault), s) := by
      simp only [Compile.file, hbad, S.run_pure]
    obtain ⟨hstatus, hfiles⟩ := run_compile_of_error S s hmid
    exact .refused hstatus hfiles (.size hzero)

private theorem isOk_print_written (w : Workspace.meaning.State) (path : Phrase) (grid : Grid) :
    (Workspace.meaning.run (Workspace.store.print (written path grid)) w).1.isOk =
      path.all fun letter ↦ letter.char?.isSome := by
  have hplain (text : String) :
      ((Phrase.ofText text).all fun letter ↦ letter.char?.isSome) = true := by
    simp [Phrase.ofText, Letter.char?]
  rw [Workspace.isOk_print, written, List.all_append, List.all_append, hplain, hplain,
    Bool.true_and, Bool.and_true]

/-- A file with a program of one instruction, in a directory of its own. -/
def oneFile : Workspace where
  tree := ({} : FileTree).put [[.char 'p']] (.file [0x2B])

private theorem get?_oneFile : oneFile.tree.get? [[.char 'p']] = some (.file [0x2B]) :=
  FileTree.get?_put_self (by simp [FileTree.get?])

private theorem locate_oneFile : oneFile.tree.locate [.char 'p'] = .ok [[.char 'p']] :=
  bind_eq_ok_iff.mpr ⟨⟨false, [[.char 'p']], false⟩, by decide, rfl⟩

private theorem holds_oneFile {bytes : List UInt8}
    (h : Workspace.meaning.Holds oneFile [.char 'p'] bytes) : bytes = [0x2B] := by
  cases h with
  | file _ hfind hdata =>
    have hplace : some _ = some _ := (congrArg Except.toOption locate_oneFile).symm.trans hfind
    cases hplace
    have hbytes : some _ = some bytes :=
      (congrArg (Option.bind · Entry.data?) get?_oneFile).symm.trans hdata
    cases hbytes
    rfl

private theorem sides_oneFile {grid : Grid} (h : translate "+" = .ok grid) :
    grid.width = 10 ∧ grid.height = 7 := by
  have hparse : Source.parse "+" = .ok [⟨.increment, 0⟩] := by decide
  obtain ⟨grid', last, htranslate, hprogram, -, hdrawn⟩ := exists_translate hparse
  have htight := Drawing.tight_of_program hprogram
  rw [htranslate] at h
  cases h
  exact ⟨Int.natCast_inj.1 (hdrawn.width_eq htight),
    hdrawn.height_eq (nests_of_parse hparse) htight⟩

private theorem serves_oneFile {size : Nat} (hsize : size ≤ 8) :
    Serves Png.library Workspace.meaning oneFile [.char 'p'] (some size) := by
  rintro bytes grid n hbytes hgrid ⟨⟩ hn
  rw [holds_oneFile hbytes] at hgrid
  obtain ⟨hwidth, hheight⟩ := sides_oneFile hgrid
  rw [hwidth, hheight]
  exact Png.faithful_library (by decide) (by decide) hn (by omega) (by omega)

private theorem not_refused_oneFile {path : Phrase} {l : Location} {n : Nat} (hn : 0 < n)
    (htarget : oneFile.tree.target path = .ok l) :
    ¬Refused Workspace.meaning [.char 'p'] path (some n) oneFile := by
  have hread : oneFile.tree.read [.char 'p'] = .ok [0x2B] := by
    refine bind_eq_ok_iff.mpr ⟨_, locate_oneFile, ?_⟩
    simp only [get?_oneFile]
    rfl
  intro h
  cases h with
  | size h => exact absurd (h n rfl) (Nat.ne_of_gt hn)
  | source _ h => cases (hread.symm.trans h)
  | program hbytes h =>
    rw [holds_oneFile hbytes] at h
    cases h
  | target h =>
    have hcreate : ((Workspace.create path).run oneFile).1 = .error _ := h
    rw [Workspace.run_create_of_ok htarget] at hcreate
    cases hcreate

end Command

end BrainPiet
