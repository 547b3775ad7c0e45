import Speedy.Chunkserver.Simulation

/-! # The log of answers

The server never reads its log: an event appends the same answers to any log. -/
namespace Speedy.Chunkserver
open Speedy.Lib

def Ledger.relog (v : Ledger) (log : List Answer) : Ledger := { v with answers := log }

/-- The same server after another past. -/
def Server.relog (s : Server) (log : List Answer) : Server := { s with answers := log }

theorem Server.ledger_relog (s : Server) (log log' : List Answer) :
    (s.relog log).ledger.relog log' = s.ledger.relog log' := rfl

section Log
variable {sb : Pwrite → Prop} {dup ack : Prop} {v v' : Ledger}

theorem Submit.relog {c : Nat} {conn : Connection} (h : Submit v c conn) (log : List Answer) :
    Submit (v.relog log) c conn :=
  ⟨h.live, h.idle, h.waits⟩

theorem LedgerStep.relog (h : LedgerStep sb dup ack v v') :
    ∃ new, v'.answers = new ++ v.answers ∧
      ∀ log, LedgerStep sb dup ack (v.relog log) (v'.relog (new ++ log)) := by
  cases h with
  | shuffle perm => exact ⟨[], rfl, fun log => .shuffle (v := v.relog log) perm⟩
  | accept => exact ⟨[], rfl, fun log => .accept (v := v.relog log)⟩
  | idle as live idle ok quiet =>
    exact ⟨as, rfl, fun log => .idle (v := v.relog log) as live idle ok quiet⟩
  | drop live idle => exact ⟨[], rfl, fun log => .drop (v := v.relog log) live idle⟩
  | park submit fn loaded fresh =>
    exact ⟨[], rfl, fun log => .park (submit.relog log) fn loaded fresh⟩
  | assign works free fits =>
    exact ⟨[], rfl, fun log => .assign (v := v.relog log) works free fits⟩
  | abandon free => exact ⟨[], rfl, fun log => .abandon (v := v.relog log) free⟩
  | submitRead submit fn entry chunk empty =>
    exact ⟨[], rfl, fun log => .submitRead (submit.relog log) fn entry chunk empty⟩
  | submitPlain submit plain =>
    exact ⟨[], rfl, fun log => .submitPlain (submit.relog log) plain⟩
  | start works => exact ⟨[], rfl, fun log => .start (v := v.relog log) works⟩
  | pwrite works live step superblock =>
    exact ⟨[], rfl, fun log => .pwrite (v := v.relog log) works live step superblock⟩
  | pread works live step =>
    exact ⟨[], rfl, fun log => .pread (v := v.relog log) works live step⟩
  | single retcode works =>
    exact ⟨[], rfl, fun log => .single (v := v.relog log) retcode works⟩
  | finish works done => exact ⟨[], rfl, fun log => .finish (v := v.relog log) works done⟩
  | reply works free ok quiet =>
    exact ⟨[_], rfl, fun log => .reply (v := v.relog log) works free ok quiet⟩
  | dumped works ok => exact ⟨[], rfl, fun log => .dumped (v := v.relog log) works ok⟩
  | readDone works fn success live ok =>
    exact ⟨[_], rfl, fun log => .readDone (v := v.relog log) works fn success live ok⟩
  | writeDone works fn success fresh alone live ok acked =>
    exact ⟨[_], rfl, fun log =>
      .writeDone (v := v.relog log) works fn success fresh alone live ok acked⟩
  | writeFailed works fn failed ok quiet =>
    exact ⟨[_], rfl, fun log => .writeFailed (v := v.relog log) works fn failed ok quiet⟩
  | writeLost works fn stale allowed ok quiet =>
    exact ⟨[_], rfl, fun log => .writeLost (v := v.relog log) works fn stale allowed ok quiet⟩

theorem Steps.relog (h : Steps sb dup ack v v') :
    ∃ new, v'.answers = new ++ v.answers ∧
      ∀ log, Steps sb dup ack (v.relog log) (v'.relog (new ++ log)) := by
  induction h with
  | refl => exact ⟨[], rfl, fun _ => .refl⟩
  | tail _ hstep ih =>
    obtain ⟨new, hnew, hlog⟩ := ih
    obtain ⟨more, hmore, hlog'⟩ := hstep.relog
    refine ⟨more ++ new, by rw [hmore, hnew, List.append_assoc], fun log => ?_⟩
    rw [List.append_assoc]
    exact (hlog log).tail (hlog' (new ++ log))

end Log
end Speedy.Chunkserver
