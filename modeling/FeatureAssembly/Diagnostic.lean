import FeatureAssembly.Classifiers

/-!
# Diagnostics

What a build tells its user beside the error that it ends with: the module that was
at work and what it stumbled over.
-/

namespace FeatureAssembly

open Json

/-- What a diagnostic is about. -/
inductive DiagnosticKind where
  | cycleDetected
  | featureNotFound
  | duplicateClassifier
  | ambiguousPackagedUnit
deriving DecidableEq, Repr

namespace DiagnosticKind

def all : List DiagnosticKind :=
  [.cycleDetected, .featureNotFound, .duplicateClassifier, .ambiguousPackagedUnit]

def word : DiagnosticKind → String
  | .cycleDetected => "cycle_detected"
  | .featureNotFound => "feature_not_found"
  | .duplicateClassifier => "duplicate_classifier"
  | .ambiguousPackagedUnit => "ambiguous_packaged_unit"

/-- Whether a diagnostic of this kind goes with a fatal error by itself. A cycle is
only a reference that finds nothing. -/
def isError : DiagnosticKind → Bool
  | .cycleDetected => false
  | _ => true

def codec : Codec DiagnosticKind := .choice all word

end DiagnosticKind

/-- **A diagnostic.** -/
structure Diagnostic where
  kind : DiagnosticKind
  /-- The module that was at work. -/
  module : ModuleKey
  subject : String
deriving DecidableEq

namespace Diagnostic

/-- A reference comes back to a feature that is being provided. -/
def cycle (module : ModuleKey) (id : Identity) : Diagnostic := ⟨.cycleDetected, module, id.text⟩

/-- A referenced feature does not exist. -/
def notFound (module : ModuleKey) (id : Identity) : Diagnostic :=
  ⟨.featureNotFound, module, id.text⟩

/-- The classifiers of a module clash. -/
def classifiers (e : ClassifierError) : Diagnostic :=
  ⟨.duplicateClassifier, e.module, displayLocations e.locations⟩

/-- A module with a packaged unit has several features to attach it to. -/
def ambiguousUnit (module : ModuleKey) (locations : List String) : Diagnostic :=
  ⟨.ambiguousPackagedUnit, module, Text.joinWith ", " locations⟩

/-- The text of a diagnostic. -/
def message (d : Diagnostic) : String :=
  match d.kind with
  | .cycleDetected => s!"cyclic reference through {d.subject} inside {d.module.text}"
  | .featureNotFound => s!"unable to find feature {d.subject} for {d.module.text}"
  | .duplicateClassifier => s!"conflicting feature classifiers in {d.module.text}: {d.subject}"
  | .ambiguousPackagedUnit =>
    s!"cannot attach packaged unit of {d.module.text}, several features defined: {d.subject}"

def codec : Codec Diagnostic :=
  .record "Diagnostic"
    (.required "kind" DiagnosticKind.codec <|
      .required "module" ModuleKey.codec <|
      .required "subject" .text .nil)
    (fun (kind, module, subject, ()) => { kind, module, subject })
    (fun d => (d.kind, d.module, d.subject, ()))

end Diagnostic

end FeatureAssembly
