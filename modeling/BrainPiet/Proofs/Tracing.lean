import BrainPiet.Proofs.Limit
import BrainPiet.Proofs.Picture.Blocks

/-!
# Traced runs

A traced run takes the same steps as a plain one, so it gives the same output, and it has one line
for each step that a plain run needs. Its limit is reached where that of a plain run is. It fails on
its own account in one case: a value on the stack has too many digits for a line.
-/

namespace BrainPiet

section Option

variable {α β : Type} {f : α → Option β}

private theorem isSome_mapM_iff {l : List α} : (l.mapM f).isSome ↔ ∀ a ∈ l, (f a).isSome := by
  induction l with
  | nil => simp
  | cons a l ih =>
    rw [List.mapM_cons, List.forall_mem_cons, ← ih]
    cases f a with
    | none => simp
    | some b => cases l.mapM f <;> simp

private theorem length_of_mapM_eq_some {l : List α} {bs : List β} (h : l.mapM f = some bs) :
    bs.length = l.length := by
  induction l generalizing bs with
  | nil =>
    cases h
    rfl
  | cons a l ih =>
    rw [List.mapM_cons] at h
    obtain ⟨b, -, h⟩ := Option.bind_eq_some_iff.mp h
    obtain ⟨bs', hbs', h⟩ := Option.bind_eq_some_iff.mp h
    cases h
    rw [List.length_cons, List.length_cons, ih hbs']

end Option

/-- A step has a line when no value on the stack has too many digits. -/
theorem LogEntry.isSome_line?_iff {e : LogEntry} :
    e.line?.isSome ↔ ∀ v ∈ e.machine.stack, (Nat.digits 10 v.natAbs).length ≤ Text.digitLimit := by
  simp only [line?, stackDisplay?, Option.isSome_map, isSome_mapM_iff, Text.isSome_decimal?_iff]

namespace Picture

variable {p : Picture} {m m' : Machine} {pos : Pos} {count n k : Nat}

/-- The steps of a walk up to a limit, as far as they succeed, counted from a number on. -/
def entries (p : Picture) (count : Nat) : (fuel : Nat) → Machine → Pos → List LogEntry
  | 0, _, _ => []
  | fuel + 1, m, pos =>
    match p.step pos m with
    | .error _ _ => []
    | .ok arrival m =>
      ⟨count, pos, arrival.op, m⟩ ::
        match arrival.pos with
        | none => []
        | some next => p.entries (count + 1) fuel m next

/-- The steps of a run up to a limit. -/
def log (p : Picture) (input : List UInt8) (limit : Int) : List LogEntry :=
  match p.start? with
  | none => []
  | some pos => p.entries 0 limit.toNat { input } pos

/-- What a traced walk makes of a walk and of the lines of its steps. -/
def traced (walk : Except WalkFault (Option Machine)) :
    Option (List String) → Except RunFault (Machine × List String)
  | none => .error (.walk (.number .unwritable))
  | some lines =>
    match walk with
    | .error fault => .error (.walk fault)
    | .ok none => .error (.traceLimit lines)
    | .ok (some m) => .ok (m, lines)

/-- A traced walk is a walk with the lines of its steps, unless one of these cannot be written. -/
theorem traceWalk_eq (lines : List String) :
    p.traceWalk count lines n m pos =
      traced (p.walk n m pos)
        (((p.entries count n m pos).mapM LogEntry.line?).map (lines.reverse ++ ·)) := by
  induction n generalizing count lines m pos with
  | zero => simp [traceWalk, entries, walk, traced]
  | succ n ih =>
    rw [traceWalk, entries, walk]
    cases p.step pos m with
    | error fault m => simp [traced]
    | ok arrival m =>
      simp only [List.mapM_cons]
      cases (LogEntry.mk count pos arrival.op m).line? with
      | none => simp [traced]
      | some line =>
        cases arrival.pos with
        | none => simp [traced]
        | some next =>
          simp only [ih]
          cases (p.entries (count + 1) n m next).mapM LogEntry.line? <;> simp

private theorem walk_of_halts (h : p.walk n m pos = .ok (some m')) (count : Nat) :
    0 < (p.entries count n m pos).length ∧ (p.entries count n m pos).length ≤ n ∧
      (∀ k, (p.entries count n m pos).length ≤ k → p.walk k m pos = .ok (some m')) ∧
      ∀ k, k < (p.entries count n m pos).length → p.walk k m pos = .ok none := by
  induction n generalizing m pos count with
  | zero => cases h
  | succ n ih =>
    rw [walk] at h
    cases hstep : p.step pos m with
    | error fault mid =>
      rw [hstep] at h
      cases h
    | ok arrival mid =>
      simp only [hstep] at h
      simp only [entries, hstep, List.length_cons]
      cases hnext : arrival.pos with
      | none =>
        simp only [hnext] at h
        refine ⟨by simp, by simp, ?_, ?_⟩
        · intro k hk
          obtain ⟨k, rfl⟩ := Nat.exists_eq_add_of_le' hk
          simp only [walk, hstep, hnext]
          exact h
        · intro k hk
          obtain rfl : k = 0 := by simpa using hk
          rfl
      | some next =>
        simp only [hnext] at h
        obtain ⟨-, hle, hmore, hless⟩ := ih h (count + 1)
        refine ⟨by simp, by simpa using hle, ?_, ?_⟩
        · intro k hk
          cases k with
          | zero => simp at hk
          | succ k =>
            simp only [walk, hstep, hnext]
            exact hmore k (by simpa using hk)
        · intro k hk
          cases k with
          | zero => rfl
          | succ k =>
            simp only [walk, hstep, hnext]
            exact hless k (by simpa using hk)

private theorem length_entries_of_limit (h : p.walk n m pos = .ok none) (count : Nat) :
    (p.entries count n m pos).length = n := by
  induction n generalizing m pos count with
  | zero => rfl
  | succ n ih =>
    rw [walk] at h
    rw [entries]
    cases hstep : p.step pos m with
    | error fault mid =>
      rw [hstep] at h
      cases h
    | ok arrival mid =>
      simp only [hstep] at h ⊢
      cases hnext : arrival.pos with
      | none =>
        rw [hnext] at h
        cases h
      | some next =>
        simp only [hnext] at h
        simp only [List.length_cons, ih h]

variable {input output : List UInt8} {limit : Int} {lines : List String}

/-- A traced run is a run with the lines of its steps, unless one of these cannot be written. -/
theorem traceRun_eq (hstart : p.start? = some pos) :
    p.traceRun input limit =
      (traced (p.walk limit.toNat { input } pos)
        ((p.log input limit).mapM LogEntry.line?)).map fun (m, lines) ↦
          (m.output.toList, lines) := by
  simp only [traceRun, log, hstart, traceWalk_eq, List.reverse_nil, List.nil_append, Option.map_id']

/-- What a traced run gives comes from a walk that halts, and from the lines of its steps. -/
theorem walk_of_traceRun (h : p.traceRun input limit = .ok (output, lines)) :
    (p.log input limit).mapM LogEntry.line? = some lines ∧
      ∃ pos m, p.start? = some pos ∧ p.walk limit.toNat { input } pos = .ok (some m) ∧
        m.output.toList = output := by
  cases hstart : p.start? with
  | none =>
    rw [traceRun, hstart] at h
    cases h
  | some pos =>
    rw [traceRun_eq hstart] at h
    cases hlines : (p.log input limit).mapM LogEntry.line? with
    | none =>
      rw [hlines] at h
      cases h
    | some new =>
      rw [hlines] at h
      cases hwalk : p.walk limit.toNat { input } pos with
      | error fault =>
        rw [hwalk] at h
        cases h
      | ok r =>
        rw [hwalk] at h
        cases r with
        | none => cases h
        | some m =>
          cases h
          exact ⟨rfl, pos, m, rfl, hwalk, rfl⟩

/-- A plain run halts on exactly as many steps as a traced run has lines. -/
theorem run_of_traceRun (h : p.traceRun input limit = .ok (output, lines)) :
    (∀ m : Int, lines.length ≤ m → p.run input m = .ok output) ∧
      ∀ m : Int, m < lines.length → p.Expires input m := by
  obtain ⟨hlines, pos, last, hstart, hwalk, houtput⟩ := walk_of_traceRun h
  have hlength : lines.length = (p.entries 0 limit.toNat { input } pos).length := by
    rw [length_of_mapM_eq_some hlines, log, hstart]
  obtain ⟨hpos, -, hmore, hless⟩ := walk_of_halts hwalk 0
  rw [hlength]
  constructor
  · intro m hm
    exact run_eq_ok_iff.mpr ⟨pos, last, hstart, hmore m.toNat (by omega), houtput⟩
  · intro m hm
    exact expires_iff.mpr ⟨pos, hstart, hless m.toNat (by omega)⟩

/-- Where a run gives an output and all lines can be written, a traced run gives both. -/
theorem traceRun_of_run (hlines : (p.log input limit).mapM LogEntry.line? = some lines)
    (h : p.run input limit = .ok output) :
    p.traceRun input limit = .ok (output, lines) ∧ lines.length ≤ limit := by
  obtain ⟨pos, m, hstart, hwalk, rfl⟩ := run_eq_ok_iff.mp h
  constructor
  · rw [traceRun_eq hstart, hlines, hwalk]
    rfl
  · obtain ⟨hpos, hle, -⟩ := walk_of_halts hwalk 0
    rw [length_of_mapM_eq_some hlines, log, hstart]
    simp only
    omega

/-- Where a run reaches its limit and all lines can be written, so does a traced run. -/
theorem traceRun_of_expires (hlines : (p.log input limit).mapM LogEntry.line? = some lines)
    (h : p.Expires input limit) :
    p.traceRun input limit = .error (.traceLimit lines) ∧ lines.length = limit.toNat := by
  obtain ⟨pos, hstart, hwalk⟩ := expires_iff.mp h
  constructor
  · rw [traceRun_eq hstart, hlines, hwalk]
    rfl
  · rw [length_of_mapM_eq_some hlines, log, hstart]
    exact length_entries_of_limit hwalk 0

end Picture

/-- The message of a traced run at its limit ends with its last lines. -/
theorem RunFault.message_traceLimit (lines : List String) :
    (traceLimit lines).message =
      "Trace exceeded max_steps\n--- TRACE (last 20 entries) ---\n" ++
        "\n".intercalate (lastLines traceTail lines) := by
  rfl

private theorem edge_dot (d : Direction) (side : Side) : Edge [(0, 0)] d side (0, 0) := by
  simp [Edge]

private theorem patch_dot {view : Pos → Codel} {s : Shade} (hs : view (0, 0) = .shade s)
    (hn : ∀ d, view (Pos.toward (0, 0) d) ≠ .shade s) : Patch view s [(0, 0)] := by
  refine ⟨?_, ?_, List.nodup_singleton _, (0, 0), List.mem_singleton.mpr rfl, ?_⟩
  · intro q hq
    rw [List.mem_singleton.mp hq]
    exact hs
  · intro q hq d hd
    rw [List.mem_singleton.mp hq] at hd
    exact absurd hd (hn d)
  · intro q hq
    rw [List.mem_singleton.mp hq]
    exact .refl

-- One red codel, which halts on its first step.
private theorem exists_dot :
    ∃ picture, Picture.load [[⟨0xFF, 0x00, 0x00⟩]] {} = .ok () picture ∧
      picture.start? = some (0, 0) ∧ picture.step (0, 0) {} = .ok ⟨none, none⟩ {} ∧
      picture.traceRun [] 5 = .ok ([], ["step=0 at=(0, 0) op=- dp=right cc=left stack=[]"]) := by
  have hrows : Rows.Rectangular [[⟨0xFF, 0x00, 0x00⟩]] := ⟨1, by decide⟩
  obtain ⟨picture, hload, hr⟩ := Picture.exists_renders hrows {}
  have hstart : picture.start? = some (0, 0) := hr.start?_eq (s := ⟨0, 1⟩) (by decide)
  have hstep : picture.step (0, 0) {} = .ok ⟨none, none⟩ {} :=
    hr.step_halt (patch_dot (s := ⟨0, 1⟩) (by decide) (by rintro ⟨⟩ <;> decide))
      (List.mem_singleton.mpr rfl) edge_dot (by rintro ⟨⟩ ⟨⟩ <;> decide) {} .right .left
  refine ⟨picture, hload, hstart, hstep, ?_⟩
  have hwalk : picture.traceWalk 0 [] 5 {} (0, 0) = .ok ({},
      ["step=0 at=(0, 0) op=- dp=right cc=left stack=[]"]) := by
    rw [Picture.traceWalk, hstep]
    rfl
  simp only [Picture.traceRun, hstart]
  exact congrArg (Except.map _) hwalk

end BrainPiet
