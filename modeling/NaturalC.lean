import NaturalC.Throwing
import NaturalC.NcString
import NaturalC.NcStringSpec
import NaturalC.Linked
import NaturalC.NcList
import NaturalC.NcListSpec
import NaturalC.NcListRuns
import NaturalC.NcListSplice
import NaturalC.NcListPositions
import NaturalC.NcHash
import NaturalC.NcHashSpec
import NaturalC.NcHashRuns
import NaturalC.NcHashMap
import NaturalC.NcHashCopy
import NaturalC.Lines
import NaturalC.NcSplit
import NaturalC.NcEscape
import NaturalC.NcStringSound
import NaturalC.NcStringRuns
import NaturalC.NcNumber
import NaturalC.NcNumeral
import NaturalC.NcListSort
import NaturalC.NcFile
import NaturalC.NcPidfile
import NaturalC.NcJoin
import NaturalC.NcLineEnds
import NaturalC.NcUnescape
import NaturalC.NcUnescapeText
import NaturalC.NcTranslate
import NaturalC.NcSerialize
import NaturalC.NcSocket
import NaturalC.NcSocketSpec
import NaturalC.NcSocketReader
import NaturalC.NcSocketRuns
import NaturalC.NcSocketChunks
import NaturalC.NcSocketCuts
import NaturalC.NcSocketEof
import NaturalC.NcSocketTimeout
import NaturalC.NcSession
import NaturalC.NcSessionEof
import NaturalC.NcServer
import NaturalC.NcDispatch
import NaturalC.Posix
import NaturalC.NcRegex
import NaturalC.NcTime
import NaturalC.NcStringFailures
import NaturalC.Cursor
import NaturalC.NcDns
import NaturalC.NcBlocklist
import NaturalC.NcHashText
import NaturalC.NcHashDecode
import NaturalC.NcHashRoundTrip
import NaturalC.NcHashFromChar
import NaturalC.Walk
import NaturalC.Regex
import NaturalC.Ncc
import NaturalC.NccLines
import NaturalC.NccFunctions
import NaturalC.NccCpp
import NaturalC.NcHashLocals
import NaturalC.NccMethods
import NaturalC.Flow
import NaturalC.NccCode
import NaturalC.NccBlocks
import NaturalC.NccEmission
import NaturalC.NccExceptions
import NaturalC.NcFileLs
import NaturalC.NcFileCopy
import NaturalC.NcPasswd
import NaturalC.NcPrivileges
import NaturalC.NcInet
import NaturalC.NccPreamble
import NaturalC.Ledger
import NaturalC.NcAccept
import NaturalC.NcThreads
import NaturalC.NccFile
import NaturalC.NccProgram
import NaturalC.Lockstep
import NaturalC.NcSessionWire
import NaturalC.Linearize
import NaturalC.NcFileWriters
import NaturalC.NcWire
import NaturalC.NcConversation
import NaturalC.NcSessionRuns
import NaturalC.NcMultiplex
import NaturalC.NcHashLeaks
import NaturalC.NcUidMap
