import Mathlib.Data.List.Perm.Basic
import Speedy.Lib.Tally

/-! # Tasks that report over a channel

Each of some tasks sends one message into a channel, and a collector takes out as many
messages as there are tasks. `sent` reads off a task what it has sent so far. The books say
that every message sent is in the channel or with the collector, once; so there is always
room in a channel of the size of the list of tasks, and a collector that has taken all its
messages has one from each task. -/
namespace Speedy.Lib

structure FanIn (τ μ : Type) where
  tasks : List τ
  chan : List μ
  got : List μ
  deriving DecidableEq, Repr

namespace FanIn
variable {τ μ : Type} {sent : τ → Option μ} {s : FanIn τ μ} {i : Nat} {t t' : τ} {m : μ}

/-- The messages sent, in the order of the tasks. -/
def messages (sent : τ → Option μ) (tasks : List τ) : List μ :=
  tasks.flatMap fun t => (sent t).toList

def Books (sent : τ → Option μ) (s : FanIn τ μ) : Prop :=
  (s.chan ++ s.got).Perm (messages sent s.tasks)

theorem messages_length_le (sent : τ → Option μ) (tasks : List τ) :
    (messages sent tasks).length ≤ tasks.length := by
  induction tasks with
  | nil => exact Nat.le_refl _
  | cons t tasks ih =>
    have hone : (sent t).toList.length ≤ 1 := by
      cases sent t with
      | none => exact Nat.zero_le _
      | some m => exact Nat.le_refl _
    simp only [messages, List.flatMap_cons, List.length_append, List.length_cons] at ih ⊢
    omega

/-- There are as many messages as tasks when all have reported. -/
theorem messages_length_eq {tasks : List τ} :
    (messages sent tasks).length = tasks.length ↔ ∀ t ∈ tasks, ∃ m, sent t = some m := by
  induction tasks with
  | nil => exact iff_of_true rfl nofun
  | cons t tasks ih =>
    have hle := messages_length_le sent tasks
    rw [List.forall_mem_cons, ← ih]
    simp only [messages, List.flatMap_cons, List.length_append, List.length_cons] at hle ⊢
    cases sent t with
    | none =>
      refine iff_of_false ?_ ?_
      · simp only [Option.toList_none, List.length_nil]
        omega
      · rintro ⟨⟨m, hm⟩, -⟩
        cases hm
    | some m =>
      simp only [Option.toList_some, List.length_cons, List.length_nil]
      constructor
      · intro h
        exact ⟨⟨m, rfl⟩, by omega⟩
      · rintro ⟨-, h⟩
        omega

theorem mem_messages {tasks : List τ} : m ∈ messages sent tasks ↔ ∃ t ∈ tasks, sent t = some m := by
  unfold messages
  simp only [List.mem_flatMap, Option.mem_toList]

theorem Books.start {tasks : List τ} (h : ∀ t ∈ tasks, sent t = none) :
    Books sent ⟨tasks, [], []⟩ := by
  have hnil : messages sent tasks = [] := by
    refine List.eq_nil_iff_forall_not_mem.mpr fun m hm => ?_
    obtain ⟨t, ht, hsent⟩ := mem_messages.mp hm
    rw [h t ht] at hsent
    cases hsent
  show List.Perm [] _
  rw [hnil]

/-- A step of a task that sends nothing. -/
theorem Books.silent (h : Books sent s) (ht : s.tasks[i]? = some t) (hsent : sent t' = sent t) :
    Books sent { s with tasks := s.tasks.set i t' } := by
  have hset := flatMap_set_perm (fun t => (sent t).toList) t' ht
  rw [hsent] at hset
  exact h.trans ((List.perm_append_right_iff _).mp hset).symm

/-- A task sends its message. -/
theorem Books.send (h : Books sent s) (ht : s.tasks[i]? = some t) (hnone : sent t = none)
    (hsome : sent t' = some m) :
    Books sent { s with tasks := s.tasks.set i t', chan := s.chan ++ [m] } := by
  have hset := flatMap_set_perm (fun t => (sent t).toList) t' ht
  simp only [hnone, hsome, Option.toList_none, Option.toList_some, List.append_nil] at hset
  refine List.Perm.trans ?_ (((List.Perm.append_right [m] h).trans hset.symm))
  show (s.chan ++ [m] ++ s.got).Perm (s.chan ++ s.got ++ [m])
  rw [List.append_assoc, List.append_assoc]
  exact List.perm_append_comm.append_left _

/-- The collector takes a message. -/
theorem Books.receive {rest : List μ} (h : Books sent s) (hchan : s.chan = m :: rest) :
    Books sent { s with chan := rest, got := s.got ++ [m] } := by
  refine List.Perm.trans ?_ h
  rw [hchan]
  show (rest ++ (s.got ++ [m])).Perm (m :: (rest ++ s.got))
  rw [← List.append_assoc]
  exact List.perm_append_singleton m _

theorem Books.got_le (h : Books sent s) : s.got.length ≤ s.tasks.length := by
  have hlen := h.length_eq
  have hle := messages_length_le sent s.tasks
  rw [List.length_append] at hlen
  omega

/-- Before a task sends, the channel has room. -/
theorem Books.room (h : Books sent s) (ht : s.tasks[i]? = some t) (hnone : sent t = none) :
    s.chan.length + s.got.length < s.tasks.length := by
  have hlen := h.length_eq
  rw [List.length_append] at hlen
  refine Nat.lt_of_le_of_ne (hlen ▸ messages_length_le sent s.tasks) fun heq => ?_
  obtain ⟨m, hm⟩ := messages_length_eq.mp (hlen.symm.trans heq) t (List.mem_of_getElem? ht)
  rw [hnone] at hm
  cases hm

/-- When the collector waits at an empty channel, some task has not sent. -/
theorem Books.pending (h : Books sent s) (hchan : s.chan = [])
    (hgot : s.got.length < s.tasks.length) :
    ∃ (i : Nat) (t : τ), s.tasks[i]? = some t ∧ sent t = none := by
  by_contra hno
  have hall : ∀ t ∈ s.tasks, ∃ m, sent t = some m := by
    intro t ht
    obtain ⟨i, hi⟩ := List.mem_iff_getElem?.mp ht
    refine Option.ne_none_iff_exists'.mp fun hnone => hno ⟨i, t, hi, hnone⟩
  have hlen := h.length_eq
  rw [hchan, List.nil_append, messages_length_eq.mpr hall] at hlen
  omega

/-- A collector that has taken all its messages has one from each task. -/
theorem Books.collected (h : Books sent s) (hgot : s.got.length = s.tasks.length) :
    (∀ t ∈ s.tasks, ∃ m, sent t = some m) ∧
      ∀ m, m ∈ s.got ↔ ∃ t ∈ s.tasks, sent t = some m := by
  have hlen := h.length_eq
  have hle := messages_length_le sent s.tasks
  rw [List.length_append] at hlen
  have hchan : s.chan = [] := List.eq_nil_of_length_eq_zero (by omega)
  refine ⟨messages_length_eq.mp (by omega), fun m => ?_⟩
  rw [← mem_messages, ← h.mem_iff, hchan, List.nil_append]

end FanIn
end Speedy.Lib
