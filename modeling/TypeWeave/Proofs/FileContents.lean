import TypeWeave.Proofs.Writing

/-!
# What files hold after many writes

Any number of texts are written to any paths, in both modes, and some of the writes may fail. A file
holds what the writes that reached it made of it one after the other
(`Disk.fileAt?_writeEach`); the others leave it alone. Texts that are appended to a new file all end
up in it, with blank lines between them (`FileWrite.foldl_appended`).
-/

namespace TypeWeave

structure FileWrite where
  path : Path
  content : String
  mode : WriteMode
  deriving DecidableEq

namespace FileWrite

/-- What a file holds after the write. Only a file that is kept keeps its content, and has a line
end behind it before the text follows. -/
def onto (w : FileWrite) (old : Option ByteArray) : ByteArray :=
  match w.mode, old with
  | .overwrite, _ => (w.content ++ "\n").toUTF8
  | .append, none => (w.content ++ "\n").toUTF8
  | .append, some old => old ++ "\n".toUTF8 ++ (w.content ++ "\n").toUTF8

theorem written_eq_onto (w : FileWrite) (old : Option ByteArray) :
    written w.mode old w.content = w.onto old := by
  obtain ⟨path, content, mode⟩ := w
  cases mode with
  | overwrite => rfl
  | append =>
    cases old with
    | none => rfl
    | some old => simp [written, onto, ByteArray.append_assoc]

/-- Those of the writes that did not fail and led to the place, in order. -/
def reaching (place : Place) (writes : List FileWrite) (failures : List (Option WriteError)) :
    List FileWrite :=
  ((writes.zip failures).filter fun (w, failure) =>
    failure.isNone && w.path.place = place).map (·.1)

theorem isSome_foldl_onto {old : Option ByteArray} (h : old.isSome) (ws : List FileWrite) :
    (ws.foldl (fun old w => some (w.onto old)) old).isSome := by
  induction ws generalizing old with
  | nil => exact h
  | cons w ws ih => exact ih rfl

/-- Appending to a new file loses none of the texts and puts a blank line between neighbours. -/
theorem foldl_appended {ws : List FileWrite} (hne : ws ≠ []) (h : ∀ w ∈ ws, w.mode = .append) :
    ws.foldl (fun old w => some (w.onto old)) none =
      some (Text.join "\n\n" (ws.map (·.content)) ++ "\n").toUTF8 := by
  induction ws using List.reverseRecOn with
  | nil => exact absurd rfl hne
  | append_singleton ws w ih =>
    have hw : w.mode = .append := h w (by simp)
    rw [List.foldl_concat, List.map_append]
    cases ws with
    | nil => simp [onto, hw, Text.join]
    | cons first rest =>
      have hfirst := ih (List.cons_ne_nil first rest) fun v hv => h v (List.mem_append_left _ hv)
      have hbytes (s t : String) : s.toUTF8 ++ t.toUTF8 = (s ++ t).toUTF8 := by simp
      have hblank (s : String) : "\n" ++ ("\n" ++ s) = "\n\n" ++ s := String.append_assoc.symm
      rw [hfirst, List.map_singleton, Text.join_concat "\n\n" (by simp)]
      simp only [onto, hw, hbytes, String.append_assoc, hblank]

end FileWrite

namespace Disk

variable {disk : Disk} {writes : List FileWrite} {place : Place}

/-- Carries out the writes in order, whether the ones before failed or not. -/
def writeEach : Disk → List FileWrite → Disk × List (Option WriteError)
  | disk, [] => (disk, [])
  | disk, w :: rest =>
    match disk.writeText w.path w.content w.mode with
    | (next, failure) => ((next.writeEach rest).1, failure :: (next.writeEach rest).2)

/-- One write changes at most the file it leads to, and that only if it does not fail. -/
theorem fileAt?_writeText_eq {w : FileWrite} {next : Disk} {failure : Option WriteError}
    (hdots : .parent ∉ w.path.components)
    (h : disk.writeText w.path w.content w.mode = (next, failure)) (place : Place) :
    next.fileAt? place =
      if failure.isNone && w.path.place = place then some (w.onto (disk.fileAt? place))
      else disk.fileAt? place := by
  cases failure with
  | some e =>
    obtain ⟨-, hdeepens⟩ := writeText_of_error h
    exact hdeepens.fileAt? place
  | none =>
    by_cases hplace : w.path.place = place
    · subst hplace
      simpa [FileWrite.written_eq_onto] using fileAt?_writeText hdots h
    · simpa [hplace] using fileAt?_writeText_of_ne hdots h (Ne.symm hplace)

theorem fileAt?_writeEach (disk : Disk) (hdots : ∀ w ∈ writes, .parent ∉ w.path.components)
    (place : Place) :
    (disk.writeEach writes).1.fileAt? place =
      (FileWrite.reaching place writes (disk.writeEach writes).2).foldl
        (fun old w => some (w.onto old)) (disk.fileAt? place) := by
  induction writes generalizing disk with
  | nil => rfl
  | cons w rest ih =>
    rw [List.forall_mem_cons] at hdots
    rcases hw : disk.writeText w.path w.content w.mode with ⟨next, failure⟩
    have hstep := fileAt?_writeText_eq hdots.1 hw place
    simp only [writeEach, hw, ih next hdots.2, hstep]
    by_cases hreached : (failure.isNone && w.path.place = place) = true
    · simp [FileWrite.reaching, hreached]
    · simp [FileWrite.reaching, hreached]

/-- A file holds what the writes that reached it made of what it held before, one after the other.
A file that is there stays, and new texts appended to a new file are all in it, a blank line apart.
At every point a write that fails, or leads elsewhere, leaves the file as it is. -/
theorem writeEach_contents (disk : Disk) (writes : List FileWrite)
    (hdots : ∀ w ∈ writes, .parent ∉ w.path.components) (place : Place) :
    let reaching := FileWrite.reaching place writes (disk.writeEach writes).2
    (disk.writeEach writes).1.fileAt? place =
      reaching.foldl (fun old w => some (w.onto old)) (disk.fileAt? place) ∧
    ((disk.fileAt? place).isSome → ((disk.writeEach writes).1.fileAt? place).isSome) ∧
    (disk.fileAt? place = none → reaching ≠ [] → (∀ w ∈ reaching, w.mode = .append) →
      (disk.writeEach writes).1.fileAt? place =
        some (Text.join "\n\n" (reaching.map (·.content)) ++ "\n").toUTF8) ∧
    ∀ before w after, writes = before ++ w :: after →
      ∀ next failure, (disk.writeEach before).1.writeText w.path w.content w.mode = (next, failure) →
        failure ≠ none ∨ w.path.place ≠ place →
        next.fileAt? place = (disk.writeEach before).1.fileAt? place := by
  intro reaching
  have hrun := fileAt?_writeEach disk hdots place
  refine ⟨hrun, fun hfile => ?_, fun hnew hne happend => ?_, ?_⟩
  · rw [hrun]
    exact FileWrite.isSome_foldl_onto hfile reaching
  · rw [hrun, hnew]
    exact FileWrite.foldl_appended hne happend
  · rintro before w after rfl next failure hw helsewhere
    rw [fileAt?_writeText_eq (hdots w (by simp)) hw]
    rcases helsewhere with hfailed | hplace
    · simp [Option.isNone_iff_eq_none, hfailed]
    · simp [hplace]

def sampleWrites : List FileWrite := [
  ⟨⟨"out/tree/base.ts"⟩, "first", .append⟩,
  ⟨⟨"out/tree/base.ts/leaf.ts"⟩, "lost", .append⟩,
  ⟨⟨"out/tree/node.ts"⟩, "lost", .overwrite⟩,
  ⟨⟨"out/tree/kind.ts"⟩, "kinds", .append⟩,
  ⟨⟨"./out//tree/base.ts"⟩, "second", .append⟩]

theorem writeEach_contents_sample :
    (∀ w ∈ sampleWrites, .parent ∉ w.path.components) ∧
    (Closure.blockedDisk.writeEach sampleWrites).1.fileAt? ["out", "tree", "base.ts"] =
      some "first\n\nsecond\n".toUTF8 ∧
    (Closure.blockedDisk.writeEach sampleWrites).1.fileAt? ["out", "tree", "kind.ts"] =
      some "// kinds\n\nkinds\n".toUTF8 := by
  have hdots : ∀ w ∈ sampleWrites, .parent ∉ w.path.components := by decide +kernel
  have hbase : FileWrite.reaching ["out", "tree", "base.ts"] sampleWrites
      (Closure.blockedDisk.writeEach sampleWrites).2 =
        [⟨⟨"out/tree/base.ts"⟩, "first", .append⟩, ⟨⟨"./out//tree/base.ts"⟩, "second", .append⟩] := by
    decide +kernel
  have hkind : FileWrite.reaching ["out", "tree", "kind.ts"] sampleWrites
      (Closure.blockedDisk.writeEach sampleWrites).2 =
        [⟨⟨"out/tree/kind.ts"⟩, "kinds", .append⟩] := by
    decide +kernel
  obtain ⟨-, -, hnew, -⟩ :=
    writeEach_contents Closure.blockedDisk sampleWrites hdots ["out", "tree", "base.ts"]
  obtain ⟨hkept, -⟩ :=
    writeEach_contents Closure.blockedDisk sampleWrites hdots ["out", "tree", "kind.ts"]
  rw [hbase] at hnew
  rw [hkind] at hkept
  refine ⟨hdots, hnew (by decide +kernel) (by simp) (by simp), hkept.trans ?_⟩
  decide +kernel

end Disk

end TypeWeave
