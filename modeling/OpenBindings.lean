import OpenBindings.Float64
import OpenBindings.Json
import OpenBindings.CanonicalJson
import OpenBindings.Profile
import OpenBindings.Url
import OpenBindings.Normalizer
import OpenBindings.Compat
import OpenBindings.Gate
import OpenBindings.Fuel
import OpenBindings.Cycles
import OpenBindings.Schema
import OpenBindings.NormalForm
import OpenBindings.Idempotence
import OpenBindings.Directions
import OpenBindings.CanonicalOrder
import OpenBindings.JsonText
import OpenBindings.Rounding
import OpenBindings.NumberText
import OpenBindings.StringText
import OpenBindings.RoundTrip
import OpenBindings.CanonicalText
import OpenBindings.WrittenText
import OpenBindings.Validation
import OpenBindings.Meaning
import OpenBindings.RefMeaning
import OpenBindings.Bounds
import OpenBindings.Conditions
import OpenBindings.KeywordSoundness
import OpenBindings.Soundness
import OpenBindings.MergeOps
import OpenBindings.Reflexivity
import OpenBindings.Pointer
import OpenBindings.Interface
import OpenBindings.Integrity
import OpenBindings.FormatToken
import OpenBindings.GoJson
import OpenBindings.Lossless
import OpenBindings.Documents
import OpenBindings.LosslessKeep
import OpenBindings.GoJsonRoundTrip
import OpenBindings.LosslessRoundTrip
import OpenBindings.DocumentRoundTrip
import OpenBindings.DocumentView
import OpenBindings.Options
import OpenBindings.DecodedDocuments
import OpenBindings.MapOrder
import OpenBindings.SharedMaps
import OpenBindings.SharedCycles
import OpenBindings.SharedWrites
