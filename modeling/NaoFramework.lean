import NaoFramework.BoardGrowth
import NaoFramework.BoardErrors
import NaoFramework.BrainLoad
import NaoFramework.BrainLife
import NaoFramework.WaveIndex
import NaoFramework.WaveThread
import NaoFramework.ModuleOwners
import NaoFramework.BoardPasses
import NaoFramework.Loggable
import NaoFramework.ConsoleResult
import NaoFramework.ConsoleReturns
import NaoFramework.ConsoleCompletion
import NaoFramework.ConsoleHistory
import NaoFramework.FrameworkFlow
import NaoFramework.WaveReturns
import NaoFramework.BrainSessions
import NaoFramework.ProgramLines
import NaoFramework.BoardOrder
import NaoFramework.LogJournal
import NaoFramework.LogGlobal
import NaoFramework.ConsoleText
import NaoFramework.ModuleExamples
