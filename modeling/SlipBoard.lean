import SlipBoard.Common.BalancedTree
import SlipBoard.Common.Block
import SlipBoard.Common.Bytes
import SlipBoard.Common.Cursor
import SlipBoard.Common.Doubling
import SlipBoard.Common.Numerals
import SlipBoard.Common.Prefix
import SlipBoard.Common.Receiver
import SlipBoard.Common.RingBuffer
import SlipBoard.Common.Transition
import SlipBoard.Common.Serialized
import SlipBoard.Common.Stuffing
import SlipBoard.Common.Terminal
import SlipBoard.Common.Traced
import SlipBoard.Common.TwoWire
import SlipBoard.Common.Words
import SlipBoard.Usart.Model.Ring
import SlipBoard.Usart.Fifo
import SlipBoard.I2c.Model.Master
import SlipBoard.I2c.Model.Device
import SlipBoard.I2c.Lines
import SlipBoard.I2c.Write
import SlipBoard.I2c.Read
import SlipBoard.Slip.Model.Sio
import SlipBoard.Slip.Model.Link
import SlipBoard.Slip.Model.Output
import SlipBoard.Slip.Framing
import SlipBoard.Slip.Poll
import SlipBoard.Slip.Delivery
import SlipBoard.Slip.Link
import SlipBoard.Telnet.Model.Console
import SlipBoard.Telnet.Model.Output
import SlipBoard.Telnet.Model.Prompt
import SlipBoard.Telnet.Model.Session
import SlipBoard.Telnet.Model.Tasks
import SlipBoard.Telnet.Sessions
import SlipBoard.Telnet.Backlog
import SlipBoard.Telnet.Drain
import SlipBoard.Telnet.Login
import SlipBoard.Telnet.EditBuffer
import SlipBoard.Telnet.Prompt
import SlipBoard.Telnet.Receive
import SlipBoard.Telnet.Sender
import SlipBoard.Microrl.Model.History
import SlipBoard.Microrl.Model.Editor
import SlipBoard.Microrl.Model.Accesses
import SlipBoard.Microrl.Model.Commands
import SlipBoard.Microrl.Commands
import SlipBoard.Microrl.History
import SlipBoard.Microrl.Editing
import SlipBoard.Microrl.Tokens
import SlipBoard.Microrl.Keys
import SlipBoard.Microrl.Completion
import SlipBoard.Microrl.Execute
import SlipBoard.Microrl.Escape
import SlipBoard.Microrl.Safety
import SlipBoard.Microrl.Screen
import SlipBoard.Microrl.TabWord
import SlipBoard.Shell.Model.AvlTree
import SlipBoard.Shell.Model.Chunk
import SlipBoard.Shell.Model.Index
import SlipBoard.Shell.Model.Command
import SlipBoard.Shell.Model.Tab
import SlipBoard.Shell.Model.Editor
import SlipBoard.Shell.Ids
import SlipBoard.Shell.Linked
import SlipBoard.Shell.Balance
import SlipBoard.Shell.Delete
import SlipBoard.Shell.Insert
import SlipBoard.Shell.Lookup
import SlipBoard.Shell.Index
import SlipBoard.Shell.Register
import SlipBoard.Shell.Parse
import SlipBoard.Shell.Argument
import SlipBoard.Shell.File
import SlipBoard.Shell.Chunk
import SlipBoard.Shell.Tab
import SlipBoard.Shell.Editor
import SlipBoard.Ebi.Model.Arguments
import SlipBoard.Ebi.Model.Package
import SlipBoard.Ebi.Model.Console
import SlipBoard.Ebi.Numbers
import SlipBoard.Ebi.Options
import SlipBoard.Ebi.Getopt
import SlipBoard.Ebi.Package
import SlipBoard.Ebi.Words
import SlipBoard.Ebi.Returns
import SlipBoard.Ebi.Console
import SlipBoard.Xprintf.Model.Format
import SlipBoard.Xprintf.Model.Input
import SlipBoard.Xprintf.Format
import SlipBoard.Xprintf.Input
import SlipBoard.Tasks.Model.Abonents
import SlipBoard.Tasks.Model.Idle
import SlipBoard.Tasks.Model.Info
import SlipBoard.Tasks.Abonents
import SlipBoard.Tasks.Idle
import SlipBoard.Tasks.Info
import SlipBoard.Snmp.Model.Asn1
import SlipBoard.Snmp.Model.Message
import SlipBoard.Snmp.Model.Request
import SlipBoard.Snmp.Model.Frame
import SlipBoard.Snmp.Model.Set
import SlipBoard.Snmp.Model.Parameters
import SlipBoard.Snmp.Asn1
import SlipBoard.Snmp.Message
import SlipBoard.Snmp.Bounds
import SlipBoard.Snmp.Chain
import SlipBoard.Snmp.Request
import SlipBoard.Snmp.Frame
import SlipBoard.Snmp.Set
import SlipBoard.Snmp.Parameters
