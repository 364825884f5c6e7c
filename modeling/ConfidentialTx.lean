import ConfidentialTx.Address
import ConfidentialTx.Amount
import ConfidentialTx.Base58
import ConfidentialTx.Borromean
import ConfidentialTx.Bytes.Hex
import ConfidentialTx.Bytes.Number
import ConfidentialTx.Coin
import ConfidentialTx.Commitment
import ConfidentialTx.Confidential.Basic
import ConfidentialTx.Confidential.Opening
import ConfidentialTx.Confidential.Signing
import ConfidentialTx.Confidential.Verification
import ConfidentialTx.Confidential.Wire
import ConfidentialTx.Edwards.Coding
import ConfidentialTx.Edwards.Coordinate
import ConfidentialTx.Edwards.FieldMap
import ConfidentialTx.Edwards.Group
import ConfidentialTx.Edwards.Multiple
import ConfidentialTx.Edwards.Point
import ConfidentialTx.Entropy
import ConfidentialTx.Entropy.Seeded
import ConfidentialTx.Error
import ConfidentialTx.Json
import ConfidentialTx.Keccak
import ConfidentialTx.Key
import ConfidentialTx.KeyGroup
import ConfidentialTx.MaskedAmount
import ConfidentialTx.Mlsag.Basic
import ConfidentialTx.Mlsag.Matrix
import ConfidentialTx.Mlsag.Signing
import ConfidentialTx.Mlsag.Verification
import ConfidentialTx.Proofs.Wire.Reading
import ConfidentialTx.RangeProof
import ConfidentialTx.Residue
import ConfidentialTx.Residue.Group
import ConfidentialTx.RingSignature
import ConfidentialTx.Transaction.Basic
import ConfidentialTx.Transaction.Expansion
import ConfidentialTx.Transaction.InPlace
import ConfidentialTx.Transaction.Verification
import ConfidentialTx.Transaction.Wire
import ConfidentialTx.Tuple
import ConfidentialTx.Wire.Limits
import ConfidentialTx.Wire.LimitsJson
import ConfidentialTx.Wire.Reader
import ConfidentialTx.Wire.Varint
import ConfidentialTx.Proofs.Wire.Varint
import ConfidentialTx.Proofs.Confidential.WireFormat
import ConfidentialTx.Proofs.Transaction.WireFormat
import ConfidentialTx.Proofs.Commitment
import ConfidentialTx.Proofs.Outcome
import ConfidentialTx.Proofs.Borromean
import ConfidentialTx.Proofs.RangeProof
import ConfidentialTx.Proofs.Mlsag.Acceptance
import ConfidentialTx.Proofs.Mlsag.Completeness
import ConfidentialTx.Proofs.Confidential.Acceptance
import ConfidentialTx.Proofs.Transaction.Expansion
import ConfidentialTx.Proofs.Transaction.Authorization
import ConfidentialTx.Proofs.Mlsag.Matrix
import ConfidentialTx.Proofs.Confidential.FullCompleteness
import ConfidentialTx.Proofs.Confidential.SimpleCompleteness
import ConfidentialTx.Proofs.Group.Residue
import ConfidentialTx.Proofs.Transaction.Restoration
import ConfidentialTx.Proofs.Transaction.Verdict
import ConfidentialTx.Proofs.Edwards.Coding
import ConfidentialTx.Proofs.RingSignature.Linkability
import ConfidentialTx.Proofs.Confidential.Conservation
import ConfidentialTx.Proofs.Wire.Stability
import ConfidentialTx.Proofs.Transaction.Delimitation
import ConfidentialTx.Proofs.Group.Response
import ConfidentialTx.Proofs.Entropy
import ConfidentialTx.Proofs.RingSignature.Completeness
import ConfidentialTx.Proofs.Mlsag.Linking
import ConfidentialTx.Proofs.Transaction.History
import ConfidentialTx.Proofs.Wire.PrefixFree
import ConfidentialTx.Proofs.Confidential.Digest
import ConfidentialTx.Proofs.Transaction.Identity
import ConfidentialTx.Proofs.Transaction.Atomicity
import ConfidentialTx.Proofs.Transaction.Representation
import ConfidentialTx.Proofs.Transaction.Construction
import ConfidentialTx.Proofs.Primality
import ConfidentialTx.Proofs.Edwards.Field
import ConfidentialTx.Proofs.Edwards.FieldMap
import ConfidentialTx.Proofs.Group.Extraction
import ConfidentialTx.Proofs.RingSignature.Soundness
import ConfidentialTx.Proofs.Mlsag.Soundness
import ConfidentialTx.Mlsag.InPlace
import ConfidentialTx.Proofs.Mlsag.InPlace
import ConfidentialTx.Confidential.Lookup
import ConfidentialTx.Proofs.Confidential.Verdict
import ConfidentialTx.Proofs.RingSignature.Acceptance
import ConfidentialTx.Proofs.Edwards.Encoding
import ConfidentialTx.Proofs.RingSignature.ImageEncoding
import ConfidentialTx.Proofs.Confidential.Binding
import ConfidentialTx.Proofs.Confidential.Signable
import ConfidentialTx.Proofs.Confidential.Opening
import ConfidentialTx.Confidential.Scan
import ConfidentialTx.Proofs.Wire.Cursor
import ConfidentialTx.Proofs.Confidential.SizeCheck
import ConfidentialTx.Proofs.Transaction.SizeCheck
import ConfidentialTx.Proofs.Transaction.RingVerdict
import ConfidentialTx.Base58.Words
import ConfidentialTx.Proofs.Base58.Block
import ConfidentialTx.Proofs.Base58.Text
import ConfidentialTx.Proofs.Base58.Words
import ConfidentialTx.Proofs.Address
import ConfidentialTx.Proofs.Wire.Words
import ConfidentialTx.Proofs.Entropy.Scalars
import ConfidentialTx.Proofs.Wire.Refusal
import ConfidentialTx.Proofs.Confidential.Randomness
import ConfidentialTx.Confidential.Session
import ConfidentialTx.Proofs.Wire.Advance
import ConfidentialTx.Proofs.Confidential.Session
