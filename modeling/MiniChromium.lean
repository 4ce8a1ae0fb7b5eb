import MiniChromium.IntegralType
import MiniChromium.SafeConversions
import MiniChromium.Promotion
import MiniChromium.CheckedMath
import MiniChromium.CheckedSum
import MiniChromium.CheckedProduct
import MiniChromium.CheckedExpression
import MiniChromium.ClampedMath
import MiniChromium.CheckedRemainder
import MiniChromium.IcuUtf
import MiniChromium.UtfStringConversions
import MiniChromium.Glob
import MiniChromium.Pattern
import MiniChromium.PatternMatching
import MiniChromium.Numeral
import MiniChromium.StringNumberConversions
import MiniChromium.NumberRanges
import MiniChromium.CheckedIterators
import MiniChromium.PortableArithmetic
import MiniChromium.Runs
import MiniChromium.ThreadExit
import MiniChromium.ThreadExitEvents
import MiniChromium.ThreadLocalMap
import MiniChromium.FilePath
import MiniChromium.FilePathRoots
import MiniChromium.EncodingForms
import MiniChromium.UnicodeForms
import MiniChromium.ConvertUnicode
import MiniChromium.Utf16ToUtf8
import MiniChromium.UtfLengths
import MiniChromium.UtfRoundTrips
import MiniChromium.PatternEncodings
import MiniChromium.BestEffortNumbers
import MiniChromium.IntegerConversions
import MiniChromium.SafeCompare
import MiniChromium.SaturationHandlers
import MiniChromium.ClampedOperations
import MiniChromium.FilePathComponents
import MiniChromium.ExitScan
import MiniChromium.Logging
import MiniChromium.Custody
import MiniChromium.NativeTlsKey
import MiniChromium.ScopedGeneric
import MiniChromium.ScopedTypeRef
import MiniChromium.TracedArithmetic
import MiniChromium.LockOwnership
import MiniChromium.Span
import MiniChromium.FilePathExtensions
import MiniChromium.FilePathAbsolute
import MiniChromium.FilePathAscent
import MiniChromium.FilePathAppend
import MiniChromium.FilePathOrder
import MiniChromium.RandUtil
import MiniChromium.ClampedSaturation
import MiniChromium.Loops
import MiniChromium.HeapArray
import MiniChromium.ScopedGenericTraits
import MiniChromium.ScopedMachVM
import MiniChromium.StringPrintf
import MiniChromium.FileUtil
import MiniChromium.StringUtil
import MiniChromium.ByteConversions
import MiniChromium.HexBytes
import MiniChromium.OrderedDict
import MiniChromium.PListUtil
import MiniChromium.PListStages
import MiniChromium.WinHelper
import MiniChromium.NumberOverflow
import MiniChromium.Backtracking
import MiniChromium.PatternRetries
import MiniChromium.PListInterpolate
import MiniChromium.ArmFastPaths
import MiniChromium.LockBuilds
import MiniChromium.CheckedChains
import MiniChromium.PListSubstitute
import MiniChromium.FilePathDescent
import MiniChromium.SpanContents
import MiniChromium.Fnmatch
import MiniChromium.RandBytes
import MiniChromium.StrCat
import MiniChromium.ProvisioningProfiles
import MiniChromium.Entitlements
import MiniChromium.ToolchainEnvironment
import MiniChromium.LogPrefix
import MiniChromium.FileSystem
import MiniChromium.FrameworkLinks
import MiniChromium.SdkInfo
import MiniChromium.MacSdk
import MiniChromium.HeapArrayContents
