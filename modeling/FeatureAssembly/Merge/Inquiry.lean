import FeatureAssembly.Assembly.Error

/-!
# Inquiries

A merger needs features that it does not have: it asks for them one at a time, and
goes on with each answer. An `Inquiry` is such a computation as data, so that any
provider can answer it: a table, or a build that assembles what is asked for.

A provider may answer with a feature, with nothing, or with an error; the inquiry
sees all three and decides itself what becomes of them.
-/

namespace FeatureAssembly

/-- What a provider says to a question. -/
abbrev Answer : Type := Except AssemblyError (Option Feature)

/-- **A computation of a feature that asks for features.** -/
inductive Inquiry where
  /-- The outcome. -/
  | done (result : Except AssemblyError Feature)
  /-- A question, and how to go on with its answer. -/
  | ask (id : Identity) (next : Answer → Inquiry)
  /-- A remark for the trace of the build. -/
  | remark (text : String) (next : Inquiry)

namespace Inquiry

/-- **Run an inquiry**, with a provider for its questions and a place for its
remarks. -/
def run {m : Type → Type} [Monad m] (provide : Identity → m Answer) (note : String → m Unit) :
    Inquiry → m (Except AssemblyError Feature)
  | .done result => return result
  | .ask id next => do
    let answer ← provide id
    (next answer).run provide note
  | .remark text next => do
    note text
    next.run provide note

end Inquiry

/-- **A way to merge features.** -/
structure Merger where
  /-- Make a raw feature final, with the features it refers to. -/
  assemble : Feature → Inquiry
  /-- Merge final features, in order, into a new one with the given identity. -/
  aggregate : Identity → List Feature → Feature

end FeatureAssembly
