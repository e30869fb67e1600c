import AppleTalk.Capture.Queue

/-!
# Every dropped frame is counted

However the reader threads and the run loop interleave, what a link's reader had to discard is
counted by the reports on the queue and what the reader has yet to report, and the rest comes
through in order. The AURP reader discards nothing.
-/

namespace AppleTalk

namespace Capture

namespace Queue

open Channel (Act Tells)

/-- What the loop is told of a reader that read `offered`: what came through is there in order, and
the reports count what did not, as far as the reader has reported it. -/
structure Told (s : Queue) (strict : Prop) (i : Reader) (offered : List Event) : Prop where
  tells : Tells Event.dropped strict (s.writers i).fates (s.items i) (s.writers i).dropped
  all : (s.writers i).stage ≠ .stopped →
    offered = (s.writers i).fates.map Prod.fst ++ (s.writers i).stage.hand
  count : ((s.items i).map Event.lost).sum + (s.writers i).dropped =
    ((s.writers i).fates.filter fun f => !f.2).length
  aurp : i = .aurp → s.items i = (s.writers i).fates.map Prod.fst ∧ (s.writers i).dropped = 0

variable {acts : List (Act Reader Event)}

/-- **Every dropped frame is counted.** After every run of the reader threads and the run loop the
queue is within its bound, and of each reader the loop is told what came through, in order, and how
much did not. Where the loop takes nothing between a report and its post, nothing comes through
while there is a loss to report. -/
theorem losses_told (h : Run acts) :
    (after acts).queue.length ≤ QUEUE ∧
      ∀ i, (after acts).Told (Undisturbed acts) i (Channel.offers i acts) := by
  refine ⟨Channel.length_queue_le acts, fun i => ?_⟩
  have hacc : Channel.Accounted i.waits Event.dropped (Undisturbed acts) _
      ((after acts).writers i) ((after acts).items i) (Channel.offers i acts) :=
    Channel.accounted h.inOrder id i
  refine ⟨hacc.tells, hacc.offered, hacc.tells.count (fun _ => rfl) fun f hf => ?_, ?_⟩
  · exact h.read i f.1 (hacc.tried.subset (List.mem_map_of_mem hf))
  · rintro rfl
    exact hacc.tells.of_all_kept (hacc.patient rfl).2.1

/-- A link's reader and the AURP reader post one event each, and the loop takes the first. -/
def twoReaders : List (Act Reader Event) :=
  [.offer (.link 0) (.error "x"), .offer .aurp (.aurp (⟨192, 0, 2, 1⟩, 387) []),
    .report (.link 0), .post .aurp, .take, .post (.link 0)]

theorem losses_told_two :
    (after twoReaders).queue.length ≤ QUEUE ∧
      ∀ i, (after twoReaders).Told (Undisturbed twoReaders) i (Channel.offers i twoReaders) := by
  refine losses_told ⟨⟨rfl, rfl, trivial, trivial, trivial, trivial, trivial⟩, fun i e he => ?_⟩
  cases i with
  | link port =>
    by_cases hport : 0 = port
    · subst hport
      obtain rfl := List.mem_singleton.1 he
      rfl
    · simp [twoReaders, Channel.offers, hport] at he
  | aurp =>
    obtain rfl := List.mem_singleton.1 he
    rfl

end Queue

end Capture

end AppleTalk
