import PipelineLint.Document.Parse
import PipelineLint.Proofs.Document.Returns

/-! # Documents from sections

A document is read from a tree section by section, and then contexts are given. So what holds of a document before
anything is read, and what reading a section keeps, holds of what was read before contexts were given
(`exists_read_of_ofTreeWith`); and what a context more in one entity keeps, giving all of them keeps
(`giveContexts_induction`).
-/

namespace PipelineLint.Read

open Yaml Reads

variable {nested : List Char → Except Endless Document} {kind : DocumentKind} {tree : Tree} {d : Document}
  {I : Document → Prop}

/-- What holds of a document holds after contexts are given, if it holds with a context more in a job or in a command.
-/
theorem giveContexts_induction
    (hjob : ∀ {d : Document} (name context : String), I d →
      I { d with jobs := d.jobs.modify name fun j => { j with contexts := addContext context j.contexts } })
    (hcommand : ∀ {d : Document} (name context : String), I d →
      I { d with commands := d.commands.modify name fun c => { c with contexts := addContext context c.contexts } })
    (hd : I d) : I (giveContexts d) := by
  refine List.foldlRecOn (motive := I) _ _ hd fun d hd given _ => ?_
  dsimp only
  unfold giveContext
  split
  · exact hd
  · refine List.foldlRecOn (motive := I) _ _ (hjob _ _ hd) fun d hd name _ => ?_
    split
    · exact hcommand name _ hd
    · exact hjob name _ hd

/-- A document that is read from a tree is what was read of its sections, with contexts given and with what was found.
-/
theorem exists_read_of_ofTreeWith (hd : ofTreeWith nested kind tree = .ok d)
    (hbare : I { Document.ofTree kind tree with anchors := .ofTree tree })
    (hsection : ∀ read name p, (View.ofTree tree).find? tree.top name = some p → I read →
      Always I (readSection (.ofTree tree) nested read name p)) :
    ∃ read findings, I read ∧ d = complete kind tree (giveContexts read) findings := by
  have hcontents : Always (fun d => ∃ read, I read ∧ d = giveContexts read) (contents nested kind tree) := by
    rw [contents]
    split
    · next top htop =>
      obtain rfl : tree.top = top := by rw [Tree.top, htop, Option.getD_some]
      refine (always_through (I := I) (fun read name _ hread => ?_) hbare).bind fun read hread =>
        always_pure ⟨read, hread, rfl⟩
      split
      · next p hp => exact hsection read name p hp hread
      · exact always_pure hread
    · exact always_pure ⟨_, hbare, rfl⟩
  rw [ofTreeWith] at hd
  split at hd
  · cases hd
  · next found findings hfound =>
    obtain ⟨read, hread, rfl⟩ := hcontents found findings hfound
    exact ⟨read, findings, hread, (Except.ok.inj hd).symm⟩

end PipelineLint.Read
