import Rustyaxe.Acl.Networks
import Rustyaxe.Config.CfgReload
import Rustyaxe.Config.Expansion
import Rustyaxe.Config.ModulesOrder
import Rustyaxe.Config.ModulesReload
import Rustyaxe.Config.Settings
import Rustyaxe.Config.TypedValues
import Rustyaxe.Dict.Atomic
import Rustyaxe.Dict.Patch
import Rustyaxe.Dict.Probe
import Rustyaxe.Duration
import Rustyaxe.Eeprom.Checksum
import Rustyaxe.Event.Domains
import Rustyaxe.Event.Emit
import Rustyaxe.Event.Finality
import Rustyaxe.Html
import Rustyaxe.Json.Lossless
import Rustyaxe.Json.Valid
import Rustyaxe.Lib.PackedArray
import Rustyaxe.Location.Resolve
import Rustyaxe.Logger.Delivery
import Rustyaxe.Nmea
import Rustyaxe.RingBuffer
import Rustyaxe.RrList
import Rustyaxe.Serial.Line
import Rustyaxe.Socks.Negotiation
import Rustyaxe.SplitArgs
import Rustyaxe.Subproc.Lifecycle
import Rustyaxe.Termkey.Input
import Rustyaxe.Termkey.MouseReports
import Rustyaxe.Transport
import Rustyaxe.Tui.History
import Rustyaxe.Tui.Hotkeys
import Rustyaxe.Tui.InputEvents
import Rustyaxe.Tui.Scrollback
import Rustyaxe.Tui.Slicing
import Rustyaxe.Tui.Stripping
import Rustyaxe.Tui.WindowList
