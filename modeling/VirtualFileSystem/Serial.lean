import VirtualFileSystem.Serve

/-!
# Requests that take the lock once

Any interleaving of requests that take the lock at most once is the run of these requests one after
the other, in the order in which they came to the lock.  Reads and writes of files take it several
times, and a listing reads the array without it.
-/

namespace Vfs

open Interleave

/-- The operation makes one access at most. -/
def Operation.Atomic : Operation → Prop
  | .file (.read _ _ _ _) | .file (.write _ _ _ _) | .readdir _ => False
  | .file (.unlink _) | .file (.rename _ _) | .file (.truncate _ _) | .file (.openFile _)
  | .file (.create _) | .getattr _ | .release => True

section Serial

variable {s : Filesys} {path : Option CString} {buf : List UInt8} {ops : ℕ → Operation}

theorem done_ite {A B E R : Type} {c : Prop} [Decidable c] {p q : Prog A B E R}
    (hp : ∃ r, p = .done r) (hq : ∃ r, q = .done r) : ∃ r, (if c then p else q) = .done r := by
  split
  · exact hp
  · exact hq

theorem single_copyName {path : CString} {k : CString → Handler} (h : ∀ name, (k name).Single) :
    (copyName path k).Single := by
  cases path with
  | mk bytes hnul =>
    cases bytes with
    | nil => exact .fail _
    | cons b bytes => exact h _

theorem single_onFile {k : CString → Handler} (h : ∀ name, (k name).Single) :
    (onFile path buf k).Single := by
  cases path with
  | none => exact .done _
  | some p =>
    show (if isRoot p then _ else _ : Handler).Single
    split
    · exact .done _
    · exact single_copyName h

theorem Operation.Atomic.single {o : Operation} (h : o.Atomic) : o.program.Single := by
  have hreply : ∀ code buf, ∃ r, reply code buf = .done r := fun code buf => ⟨⟨code, buf⟩, rfl⟩
  cases o with
  | file r =>
    refine Prog.Single.map _ _ ?_
    cases r with
    | unlink path =>
      exact single_onFile fun name => .step _ fun ret => done_ite (hreply _ _) (hreply _ _)
    | rename oldpath newpath =>
      cases oldpath with
      | none => exact .done _
      | some old =>
        cases newpath with
        | none => exact .done _
        | some new =>
          show (if isRoot old ∨ isRoot new then _ else _ : Handler).Single
          split
          · exact .done _
          · exact single_copyName fun _ => single_copyName fun _ =>
              .step _ fun ret => done_ite (hreply _ _) (hreply _ _)
    | truncate path length =>
      show (if length < 0 then _ else _ : Handler).Single
      split
      · exact .done _
      · exact single_onFile fun name => .step _ fun ret =>
          done_ite (hreply _ _) (done_ite (hreply _ _) (hreply _ _))
    | openFile path =>
      exact single_onFile fun name => .step _ fun size => done_ite (hreply _ _) (hreply _ _)
    | create path =>
      exact single_onFile fun name => .step _ fun ret =>
        done_ite (hreply _ _) (done_ite (hreply _ _) (hreply _ _))
    | read _ _ _ _ => exact absurd h id
    | write _ _ _ _ => exact absurd h id
  | getattr path =>
    show (myfuseGetattr path).Single
    unfold myfuseGetattr
    split
    · exact .done _
    · split
      · exact .step _ fun used => ⟨_, rfl⟩
      · split
        · exact .fail _
        · exact .step _ fun size => done_ite ⟨_, rfl⟩ ⟨_, rfl⟩
  | readdir _ => exact absurd h id
  | release => exact .done _

/-- **Serial order.**  If requests that take the lock once get their turns without a fault, the
replies and the state are those of the requests run one after the other, in the order of their
first turns. -/
theorem daemon_serial {schedule : List ℕ} {c : Config Touch Answer Fault Response Filesys}
    {es : List (Option (Event Touch Answer Filesys))} (hall : ∀ i ∈ schedule, (ops i).Atomic)
    (hrun : Trace.run (turn Touch.exec) schedule (serving ops s) = .ok (es, c)) :
    ∃ rs, Trace.run Operation.run ((started [] schedule).map ops) s = .ok (rs, c.shared) ∧
      List.Forall₂ (fun i r => c.threads i = .done r) (started [] schedule) rs := by
  obtain ⟨rs, hr, hends, -⟩ := turns_serial schedule [] (serving ops s) c es
    (fun i hi => absurd hi List.not_mem_nil) (fun i hi _ => (hall i hi).single) hrun
  refine ⟨rs, ?_, hends⟩
  rw [Trace.run_map]
  exact hr

end Serial

/-- Two threads create one file, and a third one removes it. -/
def racingOps : ℕ → Operation
  | 0 | 1 => .file (.create (some (bytePath 98 nul_ne_98)))
  | 2 => .file (.unlink (some (bytePath 98 nul_ne_98)))
  | _ => .release

theorem racing_atomic : ∀ i ∈ [1, 0, 2, 0], (racingOps i).Atomic := by
  intro i hi
  match i with
  | 0 | 1 | 2 => trivial
  | i + 3 => trivial

set_option maxRecDepth 20000 in
/-- The thread that came second is told that the file exists. -/
theorem daemon_serial_race : ∃ s es c, initFs (zeros 256) (zeros 72) (zeros 16) = .ok s ∧
    Trace.run (turn Touch.exec) [1, 0, 2, 0] (serving racingOps s) = .ok (es, c) ∧
    ∃ rs, Trace.run Operation.run [racingOps 1, racingOps 0, racingOps 2] s = .ok (rs, c.shared) ∧
      List.Forall₂ (fun i r => c.threads i = .done r) [1, 0, 2] rs ∧
      (c.threads 0).result = some (.reply ⟨-eexist, []⟩) := by
  obtain ⟨s, hinit, hholds⟩ := Run.holds_iff.mp
    (show Run.Holds (initFs (zeros 256) (zeros 72) (zeros 16)) (fun s =>
      Run.Holds (Trace.run (turn Touch.exec) [1, 0, 2, 0] (serving racingOps s)) fun x =>
        (x.2.threads 0).result = some (.reply ⟨-eexist, []⟩)) by decide +kernel)
  obtain ⟨⟨es, c⟩, hrun, hsecond⟩ := Run.holds_iff.mp hholds
  obtain ⟨rs, hserial, hends⟩ := daemon_serial racing_atomic hrun
  exact ⟨s, es, c, hinit, hrun, rs, hserial, hends, hsecond⟩

end Vfs
