import CpeClock.AlarmHistory
import CpeClock.Resync
import CpeClock.HomeEasyLink
import CpeClock.CrashSafety
import CpeClock.EndLoss
import CpeClock.DecoderBounds
import CpeClock.SettingsCut
import CpeClock.UncheckedTimes
import CpeClock.HmacStandard
import CpeClock.MicrosWrap
import CpeClock.RebroadcastFilter
import CpeClock.SymbolIndex
import CpeClock.SketchLoop
import CpeClock.Reformat
import CpeClock.TransmitQueue
import CpeClock.Invocations
import CpeClock.AtMostOnce
import CpeClock.NcrsDetect
import CpeClock.Sha256InPlace
import CpeClock.Session
import CpeClock.Repeater
import CpeClock.SettingsHistory
import CpeClock.CommandLine
import CpeClock.Messages
import CpeClock.DarkNight
import CpeClock.Rs.Tables
import CpeClock.Rs.Pool
import CpeClock.Readcode
