import Retrieval.Operator

/-!
# Faults

What can go wrong, by cause. A configuration fault lies in the query or the model, a data fault in
postings or documents, a lookup fault in an identifier that the index does not know (or knows
already). `Fault.message` is the one place where causes get their wording.
-/

set_option autoImplicit false

namespace Retrieval

/-- Faults of a query, of a model's parameters, or of the order in which a traversal is used. -/
inductive ConfigFault where
  | zeroSpan (kind : ProximityOp)
  | mixedFields (kind : ProximityOp) (span : UInt32) (field other : String)
  | argumentWithoutPostings (kind : ProximityOp) (span : UInt32) (found : String)
  | scoreArgument (found : String)
  | noPostings (found : String)
  | unexpectedWeights (op : Operator)
  | weightCount (op : Operator) (weights args : Nat)
  | invalidWeight (op : Operator)
  | zeroWeights (op : Operator)
  | unsupported (model operator : String)
  | belowZero (parameter value : String)
  | outsideUnit (parameter value : String)
  | scoredWithoutMatch (node : String)
  | notInitialized (query : String)
  | alreadyInitialized (query : String)
  | general (text : String)
  deriving DecidableEq, Repr

/-- Faults of posting lists and of the documents that are added. -/
inductive DataFault where
  | unorderedPositions (doc : DocId)
  | unorderedDocument (doc last : DocId) (field : String)
  | frequencyMismatch (doc : DocId) (frequency : UInt32) (positions : Nat)
  | repeatedField (field id : String)
  | general (text : String)
  deriving DecidableEq, Repr

/-- Faults of identifiers. -/
inductive LookupFault where
  | alreadyIndexed (id : String)
  | unknownDocument (doc : DocId)
  | unknownId (id : String)
  | general (text : String)
  deriving DecidableEq, Repr

/-- Any fault. `malformedText` stands for JSON text that cannot be read. -/
inductive Fault where
  | config (cause : ConfigFault)
  | data (cause : DataFault)
  | lookup (cause : LookupFault)
  | malformedText
  deriving DecidableEq, Repr

def ConfigFault.text : ConfigFault → String
  | zeroSpan kind => kind.name ++ "/0 is not a valid span"
  | mixedFields kind span field other =>
    kind.name ++ "/" ++ toString span.toNat ++ " arguments must share a field, found " ++ field
      ++ " and " ++ other
  | argumentWithoutPostings kind span found =>
    kind.name ++ "/" ++ toString span.toNat
      ++ " arguments must be terms or proximity operators, found " ++ found
  | scoreArgument found => "#SCORE requires a term or proximity operator, found " ++ found
  | noPostings found => found ++ " does not produce postings"
  | unexpectedWeights op => op.name ++ " does not take weights"
  | weightCount op weights args =>
    op.name ++ " has " ++ toString weights ++ " weights for " ++ toString args ++ " arguments"
  | invalidWeight op => op.name ++ " weights must be finite and non-negative"
  | zeroWeights op => op.name ++ " weights sum to zero"
  | unsupported model operator => model ++ " doesn't support the " ++ operator ++ " operator"
  | belowZero parameter value => parameter ++ " must be >= 0, got " ++ value
  | outsideUnit parameter value => parameter ++ " must be in [0, 1], got " ++ value
  | scoredWithoutMatch node => node ++ " scored without a match"
  | notInitialized query => "query " ++ query ++ " is not initialized"
  | alreadyInitialized query => "query " ++ query ++ " is already initialized"
  | general text => text

def DataFault.text : DataFault → String
  | unorderedPositions doc =>
    "positions for document " ++ toString doc.toNat ++ " are not strictly increasing"
  | unorderedDocument doc last field =>
    "posting for document " ++ toString doc.toNat ++ " appended after document "
      ++ toString last.toNat ++ " in field " ++ field
  | frequencyMismatch doc frequency positions =>
    "posting for document " ++ toString doc.toNat ++ " has tf " ++ toString frequency.toNat
      ++ " but " ++ toString positions ++ " positions"
  | repeatedField field id => "field " ++ field ++ " appears more than once in document " ++ id
  | general text => text

def LookupFault.text : LookupFault → String
  | alreadyIndexed id => "document " ++ id ++ " is already indexed"
  | unknownDocument doc => "unknown document " ++ toString doc.toNat
  | unknownId id => "unknown document " ++ id
  | general text => text

/-- The wording of a fault, with the kind of fault in front. -/
def Fault.message : Fault → String
  | config cause => "Configuration error: " ++ cause.text
  | data cause => "Data error: " ++ cause.text
  | lookup cause => "Index error: " ++ cause.text
  | malformedText => "JSON error"

def Fault.isConfig : Fault → Bool
  | config _ => true
  | data _ | lookup _ | malformedText => false

end Retrieval
