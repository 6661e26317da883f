/-
# Provenance

What a result was computed from: the digest of the source text and that of the compact
document.  Equal sources checked alike have equal provenance.
-/

import TensorLiveness.Check
import TensorLiveness.Report.Document
import TensorLiveness.Report.Text
import TensorLiveness.Text.Sha256

namespace TensorLiveness

open Report Text

namespace Checked

/-- The result for reading. -/
def text (c : Checked) : String := liveReport c.entry c.function c.program.vars c.outcome

/-- The identities for reading. -/
def identitiesText (c : Checked) : String :=
  identityReport c.entry c.program.vars c.outcome

/-- The result as a document. -/
def document (c : Checked) : Json :=
  Report.document c.entry c.function c.program.vars c.outcome

end Checked

namespace Report

/-- The version of the program. -/
def version : String := "0.1.0"

/-- The version of the document's format. -/
def schemaVersion : Nat := 1

/-- Digests of a source text and of its result, in hexadecimal digits. -/
structure Provenance where
  sourceHash : String
  resultFingerprint : String
deriving DecidableEq

/-- The provenance of a result. -/
def Provenance.of (source : String) (c : Checked) : Provenance :=
  ⟨Sha256.ofText source, Sha256.ofText c.document.compact⟩

/-- A provenance as a document. -/
def Provenance.document (p : Provenance) : Json :=
  .object [("source_hash", .text p.sourceHash),
    ("result_fingerprint", .text p.resultFingerprint),
    ("report_schema_version", .number schemaVersion), ("tool_version", .text version)]

/-- A provenance as text. -/
def Provenance.render (p : Provenance) : String := p.document.pretty 0 ++ "\n"

end Report
end TensorLiveness
